import LuaMachine.Proofs.Machine.Reached
import Mathlib.Data.List.Nodup
/-! # Texts are interned

At every moment of a run the intern table and the text objects of the heap belong together. A text in
use stands for a text object, and two texts are equal just if they stand for the same one.

* `Machine.Interning`: what holds of the texts of a machine.
* `Machine.Live.interning`: it holds of every sound machine.
* `Machine.reached_interning`: it holds of all machines that an embedder sees, and in their runs.
-/
set_option autoImplicit false

namespace LuaMachine
namespace Machine

/-- The intern table has a text object for a content just if this object is in the heap with this
content. -/
structure Interning (m : Machine) : Prop where
  exact : ∀ (s : String) (n : Nat), m.heap.texts[s]? = some n ↔ ⟨n, s⟩ ∈ m.heap.strings
  /-- no text object is in the heap twice -/
  distinct : (m.heap.strings.map TextObject.number).Nodup
  /-- no two text objects have equal contents -/
  single : ∀ o ∈ m.heap.strings, ∀ o' ∈ m.heap.strings,
    o.content = o'.content → o.number = o'.number
  /-- a text that the roots lead to has a text object -/
  present : ∀ s, m.Reaches (.text s) → ∃ n, m.heap.texts[s]? = some n
  /-- texts are equal just if they have the same text object -/
  same : ∀ (s t : String) (n n' : Nat), m.heap.texts[s]? = some n → m.heap.texts[t]? = some n' →
    ((Value.str s).rawEq (.str t) = true ↔ n = n')

variable {code : Nat → Prototype} {m : Machine} {options : Options} {hosts : Array HostFunction}

theorem has_text {v : Value} {s : String} (hv : m.heap.Has v) (hs : v.item? = some (.text s)) :
    s ∈ m.heap.texts := by
  cases v with
  | str t =>
    cases hs
    exact hv
  | _ => cases hs

/-- What the roots lead to is there. -/
theorem Sound.mem_texts (hm : Sound code m) {s : String} (hs : m.Reaches (.text s)) :
    s ∈ m.heap.texts := by
  cases hs with
  | root hroot =>
    cases hroot with
    | slot _ hv hn => exact has_text (hm.stack.has _ (Array.mem_of_getElem? hv)) hn
    | extra hf hv hn => exact has_text ((hm.frames.each _ hf).extra _ hv) hn
    | memoryError => exact hm.memoryText
    | filling hv hn => exact has_text (hm.filling _ hv) hn
    | pinned hv hn => exact has_text (hm.pinned _ hv) hn
  | @step r o _ _ ho hleads =>
    have hsound := hm.heap.objects r o ho
    cases hleads with
    | array hv hn =>
      have htable : Table.Holds m.heap.Has _ := hsound
      exact has_text (htable.array _ hv) hn
    | key hnode hk hn =>
      have htable : Table.Holds m.heap.Has _ := hsound
      exact has_text (htable.keys _ hnode _ hk) hn
    | node hnode hn =>
      have htable : Table.Holds m.heap.Has _ := hsound
      exact has_text (htable.nodes _ hnode) hn
    | constant hpool hv hn => exact has_text ((hm.heap.pools _ _ hpool).has _ hv) hn
    | closed hn =>
      have hclosed : m.heap.Has _ := hsound
      exact has_text hclosed hn

theorem Live.interning (h : Live m) : m.Interning := by
  obtain ⟨code, hm⟩ := h
  have hi := hm.heap.interned
  refine ⟨hi.exact, hi.distinct, fun o ho o' ho' hcontent => ?_, fun s hs => ?_,
    fun s t n n' hn hn' => ?_⟩
  · rw [hi.eq_of_content ho ho' hcontent]
  · exact Option.isSome_iff_exists.mp
      (Std.HashMap.isSome_getElem?_iff_mem.mpr (hm.toSound.mem_texts hs))
  · show (s == t) = true ↔ n = n'
    rw [beq_iff_eq]
    constructor
    · rintro rfl
      exact Option.some.inj (hn.symm.trans hn')
    · rintro rfl
      have hsame := List.inj_on_of_nodup_map hi.distinct ((hi.exact s n).mp hn)
        ((hi.exact t n).mp hn') rfl
      exact congrArg TextObject.content hsame

/-- In the machines that an embedder sees and in those of its runs, the intern table and the text
objects of the heap belong together, whatever the options say of when to collect. -/
theorem reached_interning (hhosts : ∀ f ∈ hosts, HostFunction.Honest f) :
    (∀ m, Served options hosts m → m.Interning) ∧
    ∀ p m, Reached options hosts p → p.Meets m → m.Interning :=
  ⟨fun _ hm => (hm.live hhosts).interning,
    fun _ _ hp hmeets => ((hp.sound hhosts).meets hmeets).interning⟩

/-- The loop of a program that does nothing. -/
theorem reached_interning_return :
    (∀ f ∈ (#[] : Array HostFunction), HostFunction.Honest f) ∧
    ∃ p, Reached {} #[] p ∧ p.task = .loop ∧ p.Meets p.machine ∧ p.machine.Interning ∧
      ∃ n, ⟨n, outOfMemoryText⟩ ∈ p.machine.heap.strings := by
  have hhosts : ∀ f ∈ (#[] : Array HostFunction), HostFunction.Honest f := by simp
  obtain ⟨p, hp, hloop⟩ := exists_reached_loop
  have hinterning := (reached_interning hhosts).2 p p.machine hp .now
  obtain ⟨n, hn⟩ := hinterning.present outOfMemoryText (.root .memoryError)
  exact ⟨hhosts, p, hp, hloop, .now, hinterning, n, (hinterning.exact _ n).mp hn⟩

end Machine
end LuaMachine
