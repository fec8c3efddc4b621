import LuaMachine.Proofs.Machine.Heeding
/-! # Slots that are left alone

A part of a function is executed, and other functions that it calls. Some of its registers keep what
they hold: no word of the part writes them, no upvalue is open for them, and what the other functions
use lies above them.

* `Frame.Spares`: a word that leaves slots alone.
* `Machine.Traverses`: words of a function are executed, from the first to where the last one is next.
* `Machine.Guards`, `Machine.Guards.traverses`: the slots keep their values.
* `Prototype.Minds.spares`, `Machine.Heedful.unopened`: the registers with the state of a loop.
-/
set_option autoImplicit false

namespace LuaMachine

/-- The word writes no slot of the range and makes no closure with an upvalue of one. -/
def Frame.Spares (f : Frame) (n low high : Nat) : Prop :=
  ∀ j, low ≤ j → j < high → ¬f.Takes n j ∧
    ∀ i op, f.prototype.chunk.code[n]? = some i → i.opcode? = some op → ¬f.Writes i op j

/-- An instruction writes registers of its own frame. -/
theorem Frame.Writes.base_le {f : Frame} {i : Instruction} {op : Opcode} {j : Nat}
    (h : f.Writes i op j) : f.base ≤ j := by
  unfold Frame.Writes at h
  split at h
  · omega
  · omega
  · omega
  · omega
  · omega
  · obtain ⟨r, -, hle⟩ := h
    omega

theorem Frame.spares_of_le {f : Frame} {low high : Nat} (h : high ≤ f.base) (n : Nat) :
    f.Spares n low high := fun j _ hlt => by
  refine ⟨fun htakes => ?_, fun i op _ _ hwrites => ?_⟩
  · have hle := htakes.1
    omega
  · have hle := hwrites.base_le
    omega

namespace Machine

variable {code : Nat → Prototype} {f g : Frame} {m m₀ m' : Machine} {d low high n first last : Nat}

/-- The function in the frame with this number is the innermost one and goes on at the word. -/
def Stands (d n : Nat) (m : Machine) : Prop :=
  m.frames.size = d + 1 ∧ ∃ f, m.frames.back? = some f ∧ f.next = n

/-- The function in the frame with this number executes words before the last one, or has called
another function. -/
structure Amid (d first last : Nat) (m : Machine) : Prop where
  alive : d < m.frames.size
  next : m.frames.size = d + 1 → ∀ f, m.frames.back? = some f → first ≤ f.next ∧ f.next < last

/-- The function in the frame with this number executes words from the first on, until the last one is
the next. -/
def Traverses (d first last : Nat) (m m' : Machine) : Prop :=
  Relation.ReflTransGen (fun m m' => Amid d first last m ∧ Advances m m') m m' ∧ Stands d last m'

/-- The slots hold what they held before, the frame that they belong to is still there, and nothing
else has access to them. -/
structure Guards (f : Frame) (d low high : Nat) (m m' : Machine) : Prop where
  frame : ∃ g, m'.frames[d]? = some g ∧ f.Same g
  above : ∀ e g, d < e → m'.frames[e]? = some g → high ≤ g.destination
  unopened : ∀ u ∈ m'.openUpvalues, low ≤ u.1 → high ≤ u.1
  slots : ∀ j, low ≤ j → j < high → m'.stack.getD j .nil = m.stack.getD j .nil

theorem Guards.alive (h : Guards f d low high m m') : d < m'.frames.size := by
  obtain ⟨g, hg, -⟩ := h.frame
  exact (Array.getElem?_eq_some_iff.mp hg).1

section step

variable {i : Instruction} {op : Opcode}

/-- The innermost frame leaves the slots alone, if another one is above the frame with the slots. -/
theorem Guards.spares (h : Guards f d low high m₀ m) (ha : Active code g m)
    (hspares : m.frames.size = d + 1 → g.Spares g.next low high) : g.Spares g.next low high := by
  rcases Nat.lt_or_eq_of_le h.alive with hlt | heq
  · have hle := h.above _ g (Nat.lt_sub_of_add_lt hlt) ha.frame_get
    have hbase := ha.base_eq
    exact Frame.spares_of_le (by omega) _
  · exact hspares heq.symm

theorem Guards.acts (h : Guards f d low high m₀ m) (ha : Active code g m)
    (hspares : g.Spares g.next low high) (hi : g.prototype.chunk.code[g.next]? = some i)
    (hop : i.opcode? = some op) (heffect : Effect g g.next i op m m') :
    Guards f d low high m₀ m' := by
  obtain ⟨t, stop, -, -, hframes⟩ := heffect.moves
  have hget := fun j => (congrArg (fun fs : Array Frame => fs[j]?) hframes).trans (ha.modify_get _ j)
  refine ⟨?_, fun e g' he hg' => ?_, fun u hu hle => ?_, fun j hle hlt => ?_⟩
  · obtain ⟨g', hg', hsame⟩ := h.frame
    rw [hget]
    split
    next heq =>
      rw [heq] at hg'
      cases ha.frame_get.symm.trans hg'
      exact ⟨_, rfl, hsame.trans rfl⟩
    next => exact ⟨g', hg', hsame⟩
  · rw [hget] at hg'
    split at hg'
    next heq =>
      cases hg'
      exact h.above e g he (heq ▸ ha.frame_get)
    next => exact h.above e g' he hg'
  · rcases heffect.opened u hu with ⟨hold, -⟩ | htakes
    · exact h.unopened u hold hle
    · exact Nat.le_of_not_lt fun hlt => (hspares u.1 hle hlt).1 htakes
  · rw [← h.slots j hle hlt]
    rcases heffect.slots j ((hspares j hle hlt).2 i op hi hop) with hsame | ⟨-, r, hr⟩
    · exact hsame
    · exact absurd (h.unopened _ hr hle) (Nat.not_le_of_lt hlt)

theorem Guards.calls (h : Guards f d low high m₀ m) (ha : Active code g m) (hlt : low < high)
    (hspares : g.Spares g.next low high) (hi : g.prototype.chunk.code[g.next]? = some i)
    (hop : i.opcode? = some op) (hcall : op = .call ∨ op = .iterCall) {wanted : Option Nat}
    (hanswered : Answered g (g.base + i.a + op.shift) wanted m.advanced m m') :
    Guards f d low high m₀ m' := by
  have hfunc : high ≤ g.base + i.a + op.shift := by
    have hfree := (hspares (high - 1) (by omega) (by omega)).2 i op hi hop
    refine Nat.le_of_not_lt fun hlt' => hfree ?_
    rcases hcall with rfl | rfl
    · exact ⟨i.a, rfl, by have hshift : Opcode.call.shift = 0 := rfl; omega⟩
    · have hshift : Opcode.iterCall.shift = 3 := rfl
      show g.base + i.a + 3 ≤ high - 1
      omega
  have hadvanced : ∀ j, m.advanced[j]? =
      if j = m.frames.size - 1 then some { g with next := g.next + 1 } else m.frames[j]? :=
    fun j => ha.modify_get _ j
  have hframe : ∃ g', m.advanced[d]? = some g' ∧ f.Same g' := by
    obtain ⟨g', hg', hsame⟩ := h.frame
    rw [hadvanced]
    split
    next heq =>
      rw [heq] at hg'
      cases ha.frame_get.symm.trans hg'
      exact ⟨_, rfl, hsame.trans rfl⟩
    next => exact ⟨g', hg', hsame⟩
  have habove : ∀ e g', d < e → m.advanced[e]? = some g' → high ≤ g'.destination := by
    intro e g' he hg'
    rw [hadvanced] at hg'
    split at hg'
    next heq =>
      cases hg'
      exact h.above e g he (heq ▸ ha.frame_get)
    next => exact h.above e g' he hg'
  have hsize := advanced_size m
  have halive := h.alive
  cases hanswered with
  | @enters g₁ hframes hbase hdestination _ _ _ hopened hslots =>
    refine ⟨?_, fun e g' he hg' => ?_, fun u hu hle => h.unopened u (hopened ▸ hu) hle,
      fun j hle hlt => ?_⟩
    · rw [hframes, Array.getElem?_push, if_neg (by omega)]
      exact hframe
    · rw [hframes] at hg'
      rcases getElem?_push_some hg' with hold | ⟨-, rfl⟩
      · exact habove e g' he hold
      · omega
    · rw [← h.slots j hle hlt]
      exact hslots j (by omega)
  | @delivers stop hframes _ hopened hslots =>
    have hget : ∀ (j : Nat) (g' : Frame), m'.frames[j]? = some g' →
        ∃ g₀ : Frame, m.advanced[j]? = some g₀ ∧ g₀.Same g' := by
      intro j g' hg'
      rw [hframes, Array.getElem?_modify] at hg'
      split at hg'
      · obtain ⟨g₀, hg₀, rfl⟩ := Option.map_eq_some_iff.mp hg'
        exact ⟨g₀, hg₀, rfl⟩
      · exact ⟨g', hg', .refl g'⟩
    refine ⟨?_, fun e g' he hg' => ?_, fun u hu hle => h.unopened u (hopened ▸ hu) hle,
      fun j hle hlt => ?_⟩
    · obtain ⟨g₀, hg₀, hsame⟩ := hframe
      have hlt : d < m'.frames.size := by
        rw [hframes, Array.size_modify]
        omega
      obtain ⟨g₁, hg₁, hsame'⟩ := hget d _ (Array.getElem?_eq_getElem hlt)
      cases hg₀.symm.trans hg₁
      exact ⟨_, Array.getElem?_eq_getElem hlt, hsame.trans hsame'⟩
    · obtain ⟨g₀, hg₀, hsame⟩ := hget e g' hg'
      rw [hsame]
      exact habove e g₀ he hg₀
    · rw [← h.slots j hle hlt]
      rcases hslots j (by omega) with hsame | ⟨r, hr⟩
      · exact hsame
      · exact absurd (h.unopened _ hr hle) (Nat.not_le_of_lt hlt)

theorem Guards.turned (h : Guards f d low high m₀ m) (ha : Active code g m) (hlt : low < high)
    (hturned : Turned g m m') (halive : d < m'.frames.size)
    (hspares : m.frames.size = d + 1 → g.Spares g.next low high) : Guards f d low high m₀ m' := by
  have hfree := h.spares ha hspares
  cases hturned with
  | acts hi hop hplain heffect => exact h.acts ha hfree hi hop heffect
  | calls hi hop hcall hanswered => exact h.calls ha hlt hfree hi hop hcall hanswered
  | @returns i n hi hop hframes hopened hslots =>
    have hget : ∀ {j g'}, m'.frames[j]? = some g' → j + 1 < m.frames.size ∧
        ∃ g₀ stop, m.frames[j]? = some g₀ ∧ g' = { g₀ with open' := stop } := by
      intro j g' hg'
      rw [hframes] at hg'
      exact left_get hg'
    have hgd := Array.getElem?_eq_getElem halive
    obtain ⟨hinner, g₀, stop, hg₀, heq⟩ := hget hgd
    refine ⟨⟨_, hgd, ?_⟩, fun e g' he hg' => ?_,
      fun u hu hle => h.unopened u ((hopened u).mp hu).1 hle, fun j hle hlt => ?_⟩
    · obtain ⟨g₁, hg₁, hsame⟩ := h.frame
      cases hg₀.symm.trans hg₁
      rw [heq]
      exact hsame.trans rfl
    · obtain ⟨-, g₁, stop', hg₁, rfl⟩ := hget hg'
      exact h.above e g₁ he hg₁
    · rw [← h.slots j hle hlt]
      have hle := h.above _ g (by omega) ha.frame_get
      exact hslots j (by omega)

end step

/-- The slots keep their values while words are executed that leave them alone. -/
theorem Guards.traverses (h : Guards f d low high m₀ m) (hheedful : m.Heedful) (hlt : low < high)
    (hspares : ∀ t, first ≤ t → t < last → f.Spares t low high)
    (htraverses : Traverses d first last m m') : Guards f d low high m₀ m' ∧ m'.Heedful := by
  obtain ⟨hruns, hstands⟩ := htraverses
  have halive : d < m'.frames.size := by
    have hsize := hstands.1
    omega
  induction hruns using Relation.ReflTransGen.head_induction_on with
  | refl => exact ⟨h, hheedful⟩
  | @head m m₁ hstep hrest ih =>
    obtain ⟨hamid, hadvances⟩ := hstep
    obtain ⟨code, g, ha⟩ := hheedful.active
    have halive₁ : d < m₁.frames.size := by
      rcases Relation.ReflTransGen.cases_head hrest with rfl | ⟨m₂, ⟨hamid', -⟩, -⟩
      · exact halive
      · exact hamid'.alive
    refine ih (h.turned ha hlt (hadvances.turned ha) halive₁ fun hsize => ?_)
      (hheedful.advances hadvances)
    obtain ⟨g', hg', hsame⟩ := h.frame
    have hlast := ha.frame_get
    rw [hsize, Nat.add_sub_cancel] at hlast
    cases hlast.symm.trans hg'
    obtain ⟨hfirst, hlt'⟩ := hamid.next hsize g ha.back
    have hfree := hspares g.next hfirst hlt'
    rw [hsame]
    exact hfree

end Machine

/-! ## The state of a loop -/

section state

variable {f : Frame} {ν : Note} {n a : Nat} {i : Instruction} {op : Opcode} {l : Local}

/-- A variable in a register with the state of a loop is a part of that. -/
theorem Note.Hides.hidden (h : ν.Hides a) {r : Nat} (hle : a ≤ r) (hlt : r < a + 3)
    (hl : ν.locals[r]? = some l) : l.name = loopState ∧ l.captured = false := by
  obtain ⟨s, hs⟩ := h
  obtain ⟨l', hl', hname, hcaptured, -⟩ := hs r hle hlt
  cases hl.symm.trans hl'
  exact ⟨hname, hcaptured⟩

theorem Prototype.Minds.getElem?_of_mem {p : Prototype} (h : p.Minds ν n i op) (hl : l ∈ ν.locals) :
    ν.locals[l.register]? = some l := by
  obtain ⟨k, hk⟩ := Array.mem_iff_getElem?.mp hl
  rw [h.registers k l hk]
  exact hk

/-- A word between those of a loop leaves the state of the loop alone. -/
theorem Prototype.Minds.spares (h : f.prototype.Minds ν n i op)
    (hi : f.prototype.chunk.code[n]? = some i) (hop : i.opcode? = some op) (hhides : ν.Hides a)
    (hsplits : ν.Splits (a + 2)) : f.Spares n (f.base + a) (f.base + a + 3) := by
  have hsize : a + 3 ≤ ν.locals.size := by
    obtain ⟨-, l', -, hl', -⟩ := hsplits
    have hlt := (Array.getElem?_eq_some_iff.mp hl').1
    omega
  intro j hle hlt
  refine ⟨fun htakes => ?_, fun i' op' hi' hop' hwrites => ?_⟩
  · obtain ⟨-, i', q, hi', hop', hq, s, hs, hregister, hindex⟩ := htakes
    cases hi.symm.trans hi'
    cases hop.symm.trans hop'
    obtain ⟨q', hq', hsources⟩ := h.captures rfl
    cases hq.symm.trans hq'
    obtain ⟨l, hl | hown, hcaptured, hindex'⟩ := hsources s hs hregister
    · have hhidden := (hhides.hidden (by omega) (by omega) (h.getElem?_of_mem hl)).2
      exact absurd (hcaptured.symm.trans hhidden) (by simp)
    · have hlast := (h.own l hown).2.2.1
      omega
  · cases hi.symm.trans hi'
    cases hop.symm.trans hop'
    have hstate : op = .forPrepare ∨ op = .forLoop ∨ op = .iterCall ∨ op = .iterLoop →
        a + 3 ≤ i.a := fun hloop => by
      obtain ⟨hlast, hhides'⟩ := h.loops hloop
      exact hhides'.le_of_splits hsplits hlast
    have hlowest : ∀ r, op.lowest? i.a = some r → r ≤ j - f.base → op = .move ∧ r < a := by
      intro r hr hle'
      rcases h.writes r hr with hsize' | ⟨hmove, l, hl, hregister, -, hname⟩
      · omega
      · refine ⟨hmove, Nat.lt_of_not_le fun hge => hname ?_⟩
        exact (hhides.hidden (by omega) (by omega) (h.getElem?_of_mem hl)).1
    unfold Frame.Writes at hwrites
    split at hwrites
    · have hmove := hlowest i.a rfl (by omega)
      omega
    · have hge := hstate (.inl rfl)
      omega
    · have hge := hstate (.inr (.inl rfl))
      omega
    · have hge := hstate (.inr (.inr (.inr rfl)))
      omega
    · have hge := hstate (.inr (.inr (.inl rfl)))
      omega
    next hmove _ _ _ _ =>
      obtain ⟨r, hr, hle'⟩ := hwrites
      exact hmove (hlowest r hr (by omega)).1

/-- No upvalue is open for a register with the state of a loop. -/
theorem Machine.Heedful.unopened {m : Machine} {ν : Nat → Note} (h : m.Heedful)
    (hback : m.frames.back? = some f) (hν : f.prototype.Noted ν fun _ => False)
    (hi : f.prototype.chunk.code[f.next]? = some i) (hop : i.opcode? = some op) (hclose : op ≠ .close)
    (hhides : (ν f.next).Hides a) :
    ∀ u ∈ m.openUpvalues, f.base + a ≤ u.1 → f.base + a + 3 ≤ u.1 := by
  intro u hu hle
  obtain ⟨f₀, k, -, hloop, hheeds, -⟩ := h
  obtain ⟨code, f', ha⟩ := hloop.active
  cases hback.symm.trans ha.back
  obtain ⟨i', op', hi', hop', hminds⟩ := hν.words f.next (Prototype.lt_size_of_word hi)
  obtain ⟨l, hl, hlive⟩ := hheeds.exists_live ha hloop.lt_size hν hi hu (by omega) fun hshuts =>
    hclose ((shuts_iff hi hop _).mp hshuts).1
  refine Nat.le_of_not_lt fun hlt => ?_
  have hhidden := (hhides.hidden (by omega) (by omega) (hminds.getElem?_of_mem hlive.1)).2
  exact absurd (hlive.2.1.symm.trans hhidden) (by simp)

end state

end LuaMachine
