import LuaMachine.Proofs.Machine.Effects
import LuaMachine.Proofs.Machine.Protocol
/-! # What one iteration of a loop changes

An instruction changes what it changes; a call adds a frame or has the results of a native function
delivered; a return drops the innermost frame, whose upvalues are closed.

* `Machine.Answered`: what a call changes.
* `Machine.Turned`: what an iteration changes.
* `Machine.ensures_turned`: every iteration that goes on.
-/
set_option autoImplicit false

namespace LuaMachine

/-- How far from its first register the instruction has the function that it calls. -/
def Opcode.shift : Opcode → Nat
  | .iterCall => 3
  | _ => 0

/-- How many results a call is to have, if not all. -/
def Instruction.wanted (i : Instruction) : Opcode → Option Nat
  | .iterCall => some i.c
  | _ => if i.c = 0 then none else some (i.c - 1)

/-- Where the open list ends behind a call of the function in the slot. -/
def Frame.Ends (f : Frame) (func : Nat) (wanted : Option Nat) (stop : Nat) : Prop :=
  if wanted = none then func ≤ stop else stop = f.open'

namespace Machine

variable {code : Nat → Prototype} {f f₀ : Frame} {m m' : Machine} {func fuel k : Nat}
  {argc wanted : Option Nat} {i : Instruction} {op : Opcode} {E : Fault → Machine → Prop}

/-- A call is made by the innermost of the frames: a function starts, or the results of a native
function are delivered. -/
inductive Answered (f : Frame) (func : Nat) (wanted : Option Nat) (frames : Array Frame)
    (m m' : Machine) : Prop where
  | enters {g : Frame} (hframes : m'.frames = frames.push g) (hbase : g.base = func + 1)
      (hdestination : g.destination = func) (hnext : g.next = 0) (hwanted : g.wanted = wanted)
      (hregister : g.toHost = false) (hopened : m'.openUpvalues = m.openUpvalues)
      (hslots : ∀ j < func, m'.stack.getD j .nil = m.stack.getD j .nil)
  | delivers {s : Nat} (hframes : m'.frames = frames.modify (frames.size - 1)
        fun g => { g with open' := s }) (hstop : f.Ends func wanted s)
      (hopened : m'.openUpvalues = m.openUpvalues)
      (hslots : ∀ j < func, m'.stack.getD j .nil = m.stack.getD j .nil ∨ ∃ r, (j, r) ∈ m.openUpvalues)

/-- The native function leaves the frames and the open upvalues as they are. -/
theorem answered_native {native : Native} {n : Nat} (ha : Active code f m)
    (hargs : func + 1 + n ≤ m.stack.size) :
    m.Ensures (do
      let args ← slots (func + 1) n
      raiseTop (func + 1 + n)
      let results ← runNative fuel native args.toList
      deliver results func wanted) (fun _ => Answered f func wanted m.frames m) fun _ _ => True := by
  simp only [ensures_bind, ensures_slots, ensures_raiseTop]
  have hraised : Live { m with top := max m.top (func + 1 + n) } :=
    Live.raise ⟨code, ha.ready⟩ (Nat.le_max_left _ _) (Nat.max_le.mpr ⟨ha.top_le, hargs⟩)
  refine ((kept fuel).runNative hraised fun v hv => ?_).mono (fun results m' hy => ?_)
    fun _ _ _ => trivial
  · exact ha.ready.stack.extract _ _ v (Array.mem_toList_iff.mp hv)
  · have hrestores := hy.stays.restores
    have hframes : m'.frames = m.frames := hrestores.frames
    refine ensures_deliver results func wanted (fun _ => ?_) fun _ => trivial
    have hslots : ∀ j < func, (m'.delivered results func wanted).stack.getD j .nil =
        m.stack.getD j .nil ∨ ∃ r, (j, r) ∈ m.openUpvalues := fun j hj => by
      show (deliveredStack results func _ m'.stack).getD _ _ = _ ∨ _
      rw [deliveredStack_below _ _ _ hj]
      refine hrestores.follows.slots j ?_
      show j < max m.top (func + 1 + n)
      omega
    cases wanted with
    | none =>
      refine .delivers (s := func + results.length) ?_ (Nat.le_add_right _ _) hrestores.opened hslots
      show m'.frames.modify (m'.frames.size - 1) (fun g => { g with open' := func + results.length }) = _
      rw [hframes]
    | some k =>
      refine .delivers (s := f.open') ?_ rfl hrestores.opened hslots
      exact hframes.trans (modify_self ha.frame_get rfl).symm

theorem answered_callSlot (ha : Active code f m) (hasks : Asks f m (.call func argc wanted)) :
    m.Ensures (callSlot fuel func argc wanted) (fun _ => Answered f func wanted m.frames m)
      fun _ _ => True := by
  obtain ⟨hbase, hwindow, hargs⟩ := hasks
  have hheld := ha.register_has func
  cases fuel with
  | zero => trivial
  | succ fuel =>
  rw [callSlot, ensures_bind, ensures_slot]
  split
  next r hr =>
    rw [hr] at hheld
    obtain ⟨c, hc⟩ := hheld
    have hcallable : m.Callable func false := by
      refine ⟨fun g hg => ?_, Bool.noConfusion, fun _ g hg => ?_, Bool.noConfusion⟩
      · cases ha.back.symm.trans hg
        exact hbase
      · cases ha.back.symm.trans hg
        exact hwindow
    refine ensures_enter ha.ready hc hr hcallable (fun p pool _ => ?_) (fun _ => trivial)
      fun _ _ _ _ => trivial
    exact .enters rfl rfl rfl rfl rfl rfl rfl fun j hj => enteredStack_below _ _ _ (Nat.le_of_lt hj)
  next native hnative =>
    refine ensures_guarded (fun _ => trivial) fun hdepth => ?_
    have hdeeper := Live.deeper ⟨code, ha.ready⟩ hdepth
    split
    next => trivial
    next n =>
      obtain ⟨code', hready⟩ := hdeeper
      have ha' : Active code' f m.deeper := ⟨hready, ha.back⟩
      refine (answered_native ha' (hargs n rfl)).mono (fun _ m' h => ?_) fun _ _ _ => trivial
      cases h with
      | enters hframes hb hd hn hw hr ho hs => exact .enters hframes hb hd hn hw hr ho hs
      | delivers hframes hstop ho hs => exact .delivers hframes hstop ho hs
  next => trivial

/-- What an iteration changes that goes on, when `f` is the innermost frame. -/
inductive Turned (f : Frame) (m m' : Machine) : Prop where
  | acts {i : Instruction} {op : Opcode} (hi : f.prototype.chunk.code[f.next]? = some i)
      (hop : i.opcode? = some op) (hplain : op ≠ .call ∧ op ≠ .ret ∧ op ≠ .iterCall)
      (h : Effect f f.next i op m m')
  | calls {i : Instruction} {op : Opcode} (hi : f.prototype.chunk.code[f.next]? = some i)
      (hop : i.opcode? = some op) (hcall : op = .call ∨ op = .iterCall)
      (h : Answered f (f.base + i.a + op.shift) (i.wanted op) m.advanced m m')
  | returns {i : Instruction} {n : Nat} (hi : f.prototype.chunk.code[f.next]? = some i)
      (hop : i.opcode? = some .ret)
      (hframes : m'.frames = if f.wanted.isNone then
        m.frames.pop.modify (m.frames.pop.size - 1) fun g => { g with open' := f.destination + n }
      else m.frames.pop)
      (hopened : ∀ u, u ∈ m'.openUpvalues ↔ u ∈ m.openUpvalues ∧ u.1 < f.base)
      (hslots : ∀ j < f.destination, m'.stack.getD j .nil = m.stack.getD j .nil)

/-- Fetching the instruction changes nothing else. -/
theorem Effect.unfetched {n : Nat} {shown : String}
    (h : Effect { f with next := f.next + 1 } n i op (m.fetched shown) m') : Effect f n i op m m' where
  moves := by
    obtain ⟨t, stop, hgoes, hlists, hframes⟩ := h.moves
    refine ⟨t, stop, hgoes, hlists, hframes.trans ?_⟩
    show m.advanced.modify (m.advanced.size - 1) _ = _
    rw [advanced_size, advanced, modify_back]
    rfl
  slots := h.slots
  opened := h.opened
  kept := h.kept

/-- The next instruction is fetched. -/
theorem ensures_fetching (hback : m.frames.back? = some f) :
    m.Ensures fetching (fun i m' => f.prototype.chunk.code[f.next]? = some i ∧
      ∃ shown, m' = m.fetched shown) fun _ _ => True := by
  have hfetch : ∀ shown, ({ m with output := shown } : Machine).Ensures fetch
      (fun i m' => f.prototype.chunk.code[f.next]? = some i ∧ ∃ shown, m' = m.fetched shown)
      fun _ _ => True := by
    intro shown
    simp only [fetch, ensures_bind, ensures_frame, ensures_modifyFrame]
    refine ⟨fun f' hf' => ?_, fun _ => trivial⟩
    cases hback.symm.trans hf'
    cases hi : f.prototype.chunk.code[f.next]? with
    | none => trivial
    | some i => exact ⟨rfl, shown, rfl⟩
  rw [fetching, ensures_bind, ensures_get]
  split
  · simp only [trace, write, ensures_bind, ensures_frame, ensures_slots, ensures_modify]
    exact ⟨fun _ _ => hfetch _, fun _ => trivial⟩
  · exact hfetch m.output

/-- An iteration goes on with an instruction. -/
theorem ensures_iteration_ok (ha : Active code f m) {Q : Outcome → Machine → Prop}
    (h : ∀ i op, f.prototype.chunk.code[f.next]? = some i → i.opcode? = some op →
      i.ValidAt f.prototype f.next op → ∀ shown,
      Active code { f with next := f.next + 1 } (m.fetched shown) →
      (m.fetched shown).Ensures (turn fuel i) Q fun _ _ => True) :
    m.Ensures (iteration fuel) Q fun _ _ => True := by
  rw [iteration_eq, ensures_bind]
  refine (ensures_fetching ha.back).mono (fun i m' hfetched => ?_) fun _ _ _ => trivial
  obtain ⟨hi, shown, rfl⟩ := hfetched
  obtain ⟨op, hop, hvalid⟩ := ha.codeValid.words _ i hi
  exact ensures_located ((h i op hi hop hvalid shown (ha.fetched shown)).mono (fun _ _ h => h)
    fun _ _ _ _ _ => trivial)

/-- A call is made. -/
theorem turned_call {m₁ : Machine} (hi : f.prototype.chunk.code[f.next]? = some i)
    (hop : i.opcode? = some op) (hcall : op = .call ∨ op = .iterCall)
    (ha : Active code { f with next := f.next + 1 } m₁) (hframes : m₁.frames = m.advanced)
    (hopened : m₁.openUpvalues = m.openUpvalues)
    (hslots : ∀ j < f.base + i.a + op.shift, m₁.stack.getD j .nil = m.stack.getD j .nil)
    (hasks : Asks { f with next := f.next + 1 } m₁
      (.call (f.base + i.a + op.shift) argc (i.wanted op))) :
    m₁.Ensures (callSlot fuel (f.base + i.a + op.shift) argc (i.wanted op)) (fun _ => Turned f m)
      fun _ _ => True := by
  refine (answered_callSlot ha hasks).mono (fun _ m' h => ?_) fun _ _ _ => trivial
  refine .calls hi hop hcall ?_
  rw [hframes] at h
  cases h with
  | enters h₁ h₂ h₃ h₄ h₅ h₆ ho hs =>
    exact .enters h₁ h₂ h₃ h₄ h₅ h₆ (ho.trans hopened) fun j hj => (hs j hj).trans (hslots j hj)
  | delivers h₁ h₂ ho hs =>
    refine .delivers h₁ h₂ (ho.trans hopened) fun j hj => ?_
    rw [← hslots j hj, ← hopened]
    exact hs j hj

/-- The innermost frame returns. -/
theorem turned_ret {shown : String} {source : Nat} {count : Option Nat}
    (hi : f.prototype.chunk.code[f.next]? = some i) (hop : i.opcode? = some .ret)
    (ha : Active code { f with next := f.next + 1 } (m.fetched shown)) :
    (m.fetched shown).Ensures (leave source count) (fun _ m' => f.toHost = false → Turned f m m')
      fun _ _ => True := by
  have hpop : (m.fetched shown).frames.pop = m.frames.pop := advanced_pop m
  refine ensures_leave ha (fun m' n hc _ _ hhost hregister => ?_) (fun m' n g hc _ _ hg _ _ => ?_)
    fun _ _ _ => trivial
  · -- there is no frame below
    refine .returns (n := n) hi hop ?_ hc.kept fun j hj => ?_
    · have hnone : m.frames.pop = #[] := by
        have hnone := hhost.resolve_left (by simp [hregister])
        rw [hpop] at hnone
        exact Array.back?_eq_none_iff.mp hnone
      show m'.frames.pop = _
      rw [hc.frames, hpop, hnone]
      simp
    · show (leftStack _ _ _ _ _ m'.stack).getD _ _ = _
      rw [leftStack_below _ _ _ _ _ hj, hc.stack]
      rfl
  · refine .returns (n := n) hi hop ?_ hc.kept fun j hj => ?_
    · show (if f.wanted.isNone then m'.frames.pop.modify (m'.frames.pop.size - 1) _ else _) = _
      rw [hc.frames, hpop]
    · show (leftStack _ _ _ _ _ m'.stack).getD _ _ = _
      rw [leftStack_below _ _ _ _ _ hj, hc.stack]
      rfl

/-- Every iteration that goes on. -/
theorem ensures_turned (ha : Active code f m) :
    m.Ensures (iteration fuel) (fun o m' => o = .next → Turned f m m') fun _ _ => True := by
  refine ensures_iteration_ok ha fun i op hi hop hvalid shown ha' => ?_
  rw [turn, ensures_bind, ensures_step ha']
  by_cases hplain : op ≠ .call ∧ op ≠ .ret ∧ op ≠ .iterCall
  · refine (ensures_effect ha' rfl hi hop hvalid hplain).mono (fun o m' h => ?_) fun _ _ _ => trivial
    obtain ⟨rfl, heffect⟩ := h
    exact fun _ => .acts hi hop hplain heffect.unfetched
  · have hcases : op = .call ∨ op = .iterCall ∨ op = .ret := by
      simp only [ne_eq, not_and_or, not_not] at hplain
      tauto
    rcases hcases with rfl | rfl | rfl
    · have hasks := (ensures_perform ha' hop hvalid.operands (by simp))
      simp only [perform, hop, ensures_pure] at hasks
      simp only [perform, hop, ensures_pure, ensures_bind]
      exact (turned_call hi hop (.inl rfl) ha' rfl rfl (fun _ _ => rfl) hasks.asks).mono
        (fun _ _ h _ => h) fun _ _ _ => trivial
    · have hasks := (ensures_perform ha' hop hvalid.operands (by simp))
      simp only [perform, hop, ensures_bind, ensures_copySlots, ensures_pure] at hasks
      simp only [perform, hop, ensures_bind, ensures_copySlots, ensures_pure]
      obtain ⟨f', hactive, -⟩ := hasks.works.active
      cases hactive.back.symm.trans ha'.back
      refine (turned_call hi hop (.inr rfl) hactive rfl rfl (fun j hj => ?_) hasks.asks).mono
        (fun _ _ h _ => h) fun _ _ _ => trivial
      exact (writes_moveSlots (P := fun _ => True) 3 (f.base + i.a) (f.base + i.a + 3) m.stack
        (fun _ _ => trivial) trivial).getD hj
    · simp only [perform, hop, ensures_bind, ensures_pure]
      refine (turned_ret hi hop ha').mono (fun n m' h => ?_) fun _ _ _ => trivial
      by_cases hhost : f.toHost = true
      · rw [if_pos hhost]
        exact Outcome.noConfusion
      · rw [if_neg hhost]
        exact fun _ => h (Bool.eq_false_iff.mpr hhost)

end Machine
end LuaMachine
