import LuaMachine.Proofs.Machine.Answering
import LuaMachine.Proofs.Machine.Rounds
import LuaMachine.Proofs.Table.Nodes
/-! # The calls of an iterator

A loop over an iterator keeps the iterator, its state and the control value in three registers that
only its own words write. So whatever its body does, as long as it comes to its end the loop calls
the iterator with the state and the first result of the call before, until this is nil.

* `Frame.Iterates`: the words of a loop.
* `Machine.Controls`: calls of the iterator that were answered, each with the first result of the
  one before.
* `Machine.Iterations`: what has happened when the loop is about to call its iterator.
* `Machine.Reached.iterations`: the calls are those.
-/
set_option autoImplicit false

namespace LuaMachine

/-- The words of a loop over an iterator with its state in the registers from `a` on. It is entered
with a jump to the call of the iterator, and the words between leave the state alone. -/
structure Frame.Iterates (f : Frame) (enter n a count : Nat) : Prop where
  lt : enter < n
  entry : f.prototype.HasJump enter n
  call : ∃ i, f.prototype.chunk.code[n]? = some i ∧ i.opcode? = some .iterCall ∧ i.a = a ∧ i.c = count
  last : ∃ i, f.prototype.chunk.code[n + 1]? = some i ∧ i.opcode? = some .iterLoop ∧ i.a = a ∧
    (n : Int) + 2 + i.signedBx = enter + 1
  hides : ∃ ν, f.prototype.Noted ν (fun _ => False) ∧ (ν n).Hides a ∧
    ∀ t, enter < t → t ≤ n + 1 → (ν n).Within (ν t)
  names : count ≠ 0
  spares : ∀ t, enter + 1 ≤ t → t < n → f.Spares t (f.base + a) (f.base + a + 3)

theorem Note.Hides.within {ν ν' : Note} {a : Nat} (h : ν.Hides a) (hwithin : ν.Within ν') :
    ν'.Hides a := by
  obtain ⟨s, hs⟩ := h
  refine ⟨s, fun r hle hr => ?_⟩
  obtain ⟨l, hl, hrest⟩ := hs r hle hr
  exact ⟨l, hwithin r l hl, hrest⟩

theorem Prototype.Noted.iterates {f : Frame} {ν : Nat → Note} {n enter : Nat} {i j : Instruction}
    (hν : f.prototype.Noted ν fun _ => False) (hi : f.prototype.chunk.code[n]? = some i)
    (hop : i.opcode? = some .iterCall) (hj : f.prototype.chunk.code[n + 1]? = some j)
    (henter : (n : Int) + 2 + j.signedBx = enter + 1) : f.Iterates enter n i.a i.c := by
  have hlt := Prototype.lt_size_of_word hi
  obtain ⟨enter', j', hlt', -, -, hjump, hj', hloop, ha, hstart, hwithin, hcount, hsplits⟩ :=
    (hν.settled n hlt id).iterates i hi hop
  cases hj.symm.trans hj'
  obtain rfl : enter' = enter := by omega
  obtain ⟨i', op', hi', hop', hminds⟩ := hν.words n hlt
  cases hi.symm.trans hi'
  cases hop.symm.trans hop'
  have hhides := (hminds.loops (.inr (.inr (.inl rfl)))).2
  refine ⟨hlt', hjump, ⟨i, hi, hop, rfl, rfl⟩, ⟨j, hj, hloop, ha, hstart⟩,
    ⟨ν, hν, hhides, hwithin⟩, hcount, fun t ht hlt'' => ?_⟩
  obtain ⟨k, op, hk, hkop, hminds'⟩ := hν.words t (by omega)
  exact hminds'.spares hk hkop (hhides.within (hwithin t ht (by omega))) (hsplits t ht hlt'')

namespace Machine

variable {code : Nat → Prototype} {f g : Frame} {m m' m₁ m₂ : Machine} {i j : Instruction}
  {fuel d n enter a count func t : Nat} {callee state c : Value} {results : List Value}
  {calls : List (Machine × Machine)}

/-! ## What happens in a loop -/

/-- Calls that were answered, each between two machines. The first one has the first control value for
its argument, each of the others the first result of the call before, which was not nil. The next
call has the last value. -/
inductive Controls (func : Nat) (callee state : Value) (count : Nat) (first : Value) :
    List (Machine × Machine) → Value → Prop where
  | none : Controls func callee state count first [] first
  | next {calls : List (Machine × Machine)} {c : Value} {m m' : Machine} {results : List Value}
      (h : Controls func callee state count first calls c)
      (hresponds : Responds m func [state, c] (some count) callee results m')
      (hmore : results.getD 0 .nil ≠ .nil) :
      Controls func callee state count first (calls ++ [(m, m')]) (results.getD 0 .nil)

/-- Before the first call the control value is the first one. -/
theorem Controls.eq_first {first : Value} (h : Controls func callee state count first calls c)
    (hcalls : calls = []) : c = first := by
  cases h with
  | none => rfl
  | next => exact absurd hcalls (by simp)

/-- The loop has been entered, and it is about to call its iterator. Before that it has made some
calls, each between two machines, and has executed its body behind each of them. -/
inductive Iterations (d enter n : Nat) (m : Machine) : List (Machine × Machine) → Machine → Prop where
  | entered {m' : Machine} (hstep : Advances m m') : Iterations d enter n m [] m'
  | again {calls : List (Machine × Machine)} {m₁ m₂ m₃ m₄ : Machine}
      (h : Iterations d enter n m calls m₁) (hcall : Traverses d n (n + 1) m₁ m₂)
      (hstep : Advances m₂ m₃) (hstands : Stands d (enter + 1) m₃)
      (hbody : Traverses d (enter + 1) n m₃ m₄) : Iterations d enter n m (calls ++ [(m₁, m₂)]) m₄

/-- The function is at a word of the loop with this state in its registers, which nothing else has
access to. -/
structure InLoop (f : Frame) (d t a : Nat) (callee state c : Value) (m : Machine) : Prop where
  heedful : m.Heedful
  orderly : m.Orderly
  stands : Stands d t m
  guards : Guards f d (f.base + a) (f.base + a + 3) m m
  callee : m.reg f a = callee
  state : m.reg f (a + 1) = state
  control : m.reg f (a + 2) = c

/-- The frame of the loop is the innermost one. -/
theorem InLoop.active (h : InLoop f d t a callee state c m) :
    ∃ code g, Active code g m ∧ f.Same g ∧ g.next = t := by
  obtain ⟨hsize, g, hback, hnext⟩ := h.stands
  obtain ⟨code, g', ha⟩ := h.heedful.active
  cases hback.symm.trans ha.back
  obtain ⟨g', hg', hsame⟩ := h.guards.frame
  have hlast := ha.frame_get
  rw [hsize, Nat.add_sub_cancel] at hlast
  cases hlast.symm.trans hg'
  exact ⟨code, g, ha, hsame, hnext⟩

/-- Words that leave the state alone are executed. -/
theorem InLoop.traverses {first last : Nat} (h : InLoop f d first a callee state c m)
    (hspares : ∀ t, first ≤ t → t < last → f.Spares t (f.base + a) (f.base + a + 3))
    (htraverses : Traverses d first last m m') : InLoop f d last a callee state c m' := by
  obtain ⟨hguards, hheedful⟩ := h.guards.traverses h.heedful (by omega) hspares htraverses
  have horderly : m'.Orderly := by
    have hruns := htraverses.1
    have horderly := h.orderly
    clear h hguards htraverses hheedful
    induction hruns with
    | refl => exact horderly
    | tail _ hstep ih => exact ih.advances hstep.2
  have hreg : ∀ r, a ≤ r → r < a + 3 → m'.reg f r = m.reg f r := fun r hle hlt =>
    hguards.slots _ (by omega) (by omega)
  exact ⟨hheedful, horderly, htraverses.2, ⟨hguards.frame, hguards.above, hguards.unopened,
    fun _ _ _ => rfl⟩, (hreg a (by omega) (by omega)).trans h.callee,
    (hreg (a + 1) (by omega) (by omega)).trans h.state,
    (hreg (a + 2) (by omega) (by omega)).trans h.control⟩

/-! ## The words of a loop -/

/-- A jump. -/
theorem ensures_jumped (fuel : Nat) (ha : Active code f m) (hi : f.prototype.chunk.code[f.next]? = some i)
    (hop : i.opcode? = some .jump) (ht : (f.next : Int) + 1 + i.signedAx = t) :
    m.Ensures (iteration fuel) (fun o m' => o = .next ∧ m'.stack = m.stack ∧
      m'.openUpvalues = m.openUpvalues ∧
      m'.frames = m.frames.modify (m.frames.size - 1) fun g => { g with next := t })
      fun _ _ => False := by
  refine ensures_iteration ha hi (E := fun _ => False) fun shown => ?_
  have hfetched := ha.fetched shown
  rw [turn, ensures_bind, ensures_step hfetched]
  simp only [perform, hop, ensures_bind]
  refine ensures_jump_to (t := t) hfetched.back ?_ ⟨rfl, rfl, rfl, advanced_jump ha _⟩
  show ((f.next + 1 : Nat) : Int) + i.signedAx = _
  omega

/-- The last word of the loop: its control value becomes the first result, or the loop ends. -/
theorem ensures_iterated (fuel : Nat) (ha : Active code f m) (hi : f.prototype.chunk.code[f.next]? = some i)
    (hop : i.opcode? = some .iterLoop) (ht : (f.next : Int) + 1 + i.signedBx = t) :
    m.Ensures (iteration fuel) (fun o m' => o = .next ∧ m'.openUpvalues = m.openUpvalues ∧
      (m.reg f (i.a + 3) = .nil →
        m'.frames = m.frames.modify (m.frames.size - 1) fun g => { g with next := f.next + 1 }) ∧
      (m.reg f (i.a + 3) ≠ .nil →
        m'.stack = m.stack.setIfInBounds (f.base + (i.a + 2)) (m.reg f (i.a + 3)) ∧
          m'.frames = m.frames.modify (m.frames.size - 1) fun g => { g with next := t }))
      fun _ _ => False := by
  refine ensures_iteration ha hi (E := fun _ => False) fun shown => ?_
  have hfetched := ha.fetched shown
  rw [turn, ensures_bind, ensures_step hfetched]
  have hreg : (m.fetched shown).stack.getD (f.base + (i.a + 3)) .nil = m.reg f (i.a + 3) := rfl
  simp only [perform, hop, iterLoop, ensures_bind, ensures_register, hreg]
  by_cases hnil : m.reg f (i.a + 3) = .nil
  · rw [if_neg (by rw [hnil]; exact Bool.false_ne_true), ensures_pure]
    exact ⟨rfl, rfl, fun _ => advanced_step ha, fun hne => absurd hnil hne⟩
  · rw [if_pos (by
      rw [Bool.not_eq_true']
      exact Bool.eq_false_iff.mpr fun h => hnil (Value.isNil_iff.mp h))]
    simp only [ensures_bind, ensures_pure, setRegister, ensures_setSlot]
    refine ensures_jump_to (t := t) hfetched.back ?_
      ⟨trivial, rfl, fun h => absurd h hnil, fun _ => ⟨rfl, advanced_jump ha _⟩⟩
    show ((f.next + 1 : Nat) : Int) + i.signedBx = _
    omega

/-- The next word calls the iterator with the state and the control value. -/
theorem InLoop.site (h : InLoop f d n a callee state c m) (hloop : f.Iterates enter n a count) :
    ∃ code g, Active code g m ∧ f.Same g ∧ g.next = n ∧
      CallSite g m (f.base + a + 3) callee [state, c] (some count) := by
  obtain ⟨code, g, ha, hsame, hnext⟩ := h.active
  obtain ⟨i, hi, hop, rfl, rfl⟩ := hloop.call
  have hbase : g.base = f.base := by rw [hsame]
  have hprototype : g.prototype = f.prototype := by rw [hsame]
  have hsite := CallSite.iterator (f := g) (m := m) (by rw [hprototype, hnext]; exact hi) hop
  have hfirst : m.stack.getD (f.base + i.a) .nil = callee := h.callee
  have hsecond : m.stack.getD (f.base + i.a + 1 + 0) .nil = state := h.state
  have hthird : m.stack.getD (f.base + i.a + 1 + 1) .nil = c := h.control
  have hargs : valuesFrom m.stack (f.base + i.a + 1) 2 = [state, c] := by
    rw [← hsecond, ← hthird]
    rfl
  rw [hbase, hfirst, hargs] at hsite
  exact ⟨code, g, ha, hsame, hnext, hsite⟩

/-- Behind the call of the iterator its results are the values of the variables. -/
theorem InLoop.answered (h : InLoop f d n a callee state c m) (hloop : f.Iterates enter n a count)
    (hcall : Traverses d n (n + 1) m m') :
    ∃ results, Responds m (f.base + a + 3) [state, c] (some count) callee results m' ∧
      InLoop f d (n + 1) a callee state c m' ∧
      ∀ k < count, m'.reg f (a + 3 + k) = results.getD k .nil := by
  obtain ⟨code, g, ha, hsame, rfl, hsite⟩ := h.site hloop
  obtain ⟨results, hresponds, hresumes⟩ := hcall.responds hsite ha h.orderly h.stands.1
  obtain ⟨i, hi, hop, rfl, -⟩ := hloop.call
  refine ⟨results, hresponds, h.traverses (fun t ht hlt => ?_) hcall, fun k hk => ?_⟩
  · obtain rfl : t = g.next := by omega
    intro j hle hlt'
    refine ⟨fun htakes => ?_, fun i' op' hi' hop' hwrites => ?_⟩
    · obtain ⟨-, i', -, hi', hop', -⟩ := htakes
      cases hi.symm.trans hi'
      cases hop.symm.trans hop'
    · cases hi.symm.trans hi'
      cases hop.symm.trans hop'
      have hge : f.base + i.a + 3 ≤ j := hwrites
      omega
  · have hresult := hresumes.result k hk
    rw [reg, show f.base + (i.a + 3 + k) = f.base + i.a + 3 + k by omega]
    exact hresult

/-- The loop goes on with its body and the first result for the control value, unless that is nil. -/
theorem InLoop.decided (h : InLoop f d (n + 1) a callee state c m)
    (hloop : f.Iterates enter n a count) :
    (∃ m', Advances m m') ∧ ∀ m', Advances m m' →
      (m.reg f (a + 3) = .nil → Stands d (n + 2) m') ∧
      (m.reg f (a + 3) ≠ .nil → InLoop f d (enter + 1) a callee state (m.reg f (a + 3)) m' ∧
        ∀ r, r ≠ a + 2 → m'.reg f r = m.reg f r) := by
  obtain ⟨code, g, ha, hsame, hnext⟩ := h.active
  obtain ⟨i, hi, hop, rfl, henter⟩ := hloop.last
  have hbase : g.base = f.base := by rw [hsame]
  have hprototype : g.prototype = f.prototype := by rw [hsame]
  have hword : g.prototype.chunk.code[g.next]? = some i := by
    rw [hprototype, hnext]
    exact hi
  have hreg : ∀ (m : Machine) r, m.reg g r = m.reg f r := fun m r => by rw [reg, reg, hbase]
  have hiterated := fun fuel => ensures_iterated fuel (t := enter + 1) ha hword hop (by omega)
  rw [hreg, hnext, hbase] at hiterated
  refine ⟨?_, fun m' hadvances => ?_⟩
  · rcases ensures_iff_run.mp (hiterated 0) with ⟨o, m', hrun, rfl, -⟩ | ⟨_, _, _, hfalse⟩
    · exact ⟨m', 0, hrun⟩
    · exact hfalse.elim
  · obtain ⟨fuel, hrun⟩ := id hadvances
    obtain ⟨-, hopened, hends, hgoes⟩ := (hiterated fuel).of_ok hrun
    refine ⟨fun hnil => (stands_modify ha.back h.stands.1 (hends hnil)).1, fun hne => ?_⟩
    obtain ⟨hstack, hframes⟩ := hgoes hne
    obtain ⟨hstands, hback⟩ := stands_modify ha.back h.stands.1 hframes
    have hroom : f.base + (i.a + 2) < m.stack.size := by
      obtain ⟨op, hop', hvalid⟩ := ha.codeValid.words _ i hword
      cases hop'.symm.trans hop
      have hfit := hvalid.operands.registers (i.a + 2, 2) List.mem_cons_self 0 (by simp)
      have hwindow := ha.window_le_size
      have hlt : i.a + 2 + 0 < g.prototype.registers := hfit
      omega
    have hothers : ∀ r, r ≠ i.a + 2 → m'.reg f r = m.reg f r := fun r hne => by
      rw [reg, hstack, Array.getD_eq_getD_getElem?, Array.getElem?_setIfInBounds_ne (by omega), reg,
        Array.getD_eq_getD_getElem?]
    refine ⟨⟨h.heedful.advances hadvances, h.orderly.advances hadvances, hstands,
      .start hback hstands.1 (hsame.trans rfl) fun u hu => h.guards.unopened u (hopened ▸ hu),
      (hothers _ (by omega)).trans h.callee, (hothers _ (by omega)).trans h.state, ?_⟩, hothers⟩
    rw [reg, hstack, Array.getD_eq_getD_getElem?, Array.getElem?_setIfInBounds_self_of_lt hroom,
      Option.getD_some]

/-- Whenever the loop is about to call its iterator, the calls before have been answered, and their
last one has given the control value. -/
theorem Iterations.inLoop (h : Iterations d enter n m calls m') (hloop : f.Iterates enter n a count)
    {first : Value} (hentered : ∀ m₁, Advances m m₁ → InLoop f d n a callee state first m₁) :
    ∃ c, Controls (f.base + a + 3) callee state count first calls c ∧
      InLoop f d n a callee state c m' := by
  induction h with
  | entered hstep => exact ⟨first, .none, hentered _ hstep⟩
  | @again calls m₁ m₂ m₃ m₄ _ hcall hstep hstands hbody ih =>
    obtain ⟨c, hcontrols, hround⟩ := ih
    obtain ⟨results, hresponds, hanswered, hregs⟩ := hround.answered hloop hcall
    have hfirst : m₂.reg f (a + 3) = results.getD 0 .nil :=
      hregs 0 (Nat.pos_of_ne_zero hloop.names)
    obtain ⟨hends, hgoes⟩ := (hanswered.decided hloop).2 _ hstep
    have hmore : m₂.reg f (a + 3) ≠ .nil := fun hnil => by
      obtain ⟨-, g, hg, hnext⟩ := hstands
      obtain ⟨-, g', hg', hnext'⟩ := hends hnil
      cases hg.symm.trans hg'
      have hlt := hloop.lt
      omega
    refine ⟨results.getD 0 .nil, .next hcontrols hresponds (hfirst ▸ hmore), ?_⟩
    rw [← hfirst]
    exact (hgoes hmore).1.traverses hloop.spares hbody

variable {options : Options} {hosts : Array HostFunction} {p : Moment}

/-- A loop over an iterator is entered: it calls the iterator with the state and the first control
value. Whatever its body does, whenever that comes to its end the loop calls the iterator with the
state and the first result of the call before. Behind each call it goes on behind itself if the
first result is nil, and else its body is executed, with the results as values of the variables. -/
theorem Reached.iterations (hhosts : ∀ f ∈ hosts, HostFunction.Honest f)
    (h : Reached options hosts p) (htask : p.task = .loop) (hback : p.machine.frames.back? = some f)
    (hi : f.prototype.chunk.code[n]? = some i) (hop : i.opcode? = some .iterCall)
    (hj : f.prototype.chunk.code[n + 1]? = some j) (hstart : (n : Int) + 2 + j.signedBx = f.next + 1) :
    i.c ≠ 0 ∧ (∃ m, Iterations (p.machine.frames.size - 1) f.next n p.machine [] m) ∧
      ∀ calls m, Iterations (p.machine.frames.size - 1) f.next n p.machine calls m →
        ∃ c, Controls (f.base + i.a + 3) (p.machine.reg f i.a) (p.machine.reg f (i.a + 1)) i.c
            (p.machine.reg f (i.a + 2)) calls c ∧
          Stands (p.machine.frames.size - 1) n m ∧
          (∃ g, m.frames.back? = some g ∧ CallSite g m (f.base + i.a + 3) (p.machine.reg f i.a)
            [p.machine.reg f (i.a + 1), c] (some i.c)) ∧
          ∀ m₁, Traverses (p.machine.frames.size - 1) n (n + 1) m m₁ →
            ∃ results, Responds m (f.base + i.a + 3) [p.machine.reg f (i.a + 1), c] (some i.c)
                (p.machine.reg f i.a) results m₁ ∧
              (∃ m₂, Advances m₁ m₂) ∧ ∀ m₂, Advances m₁ m₂ →
                (results.getD 0 .nil = .nil → Stands (p.machine.frames.size - 1) (n + 2) m₂) ∧
                (results.getD 0 .nil ≠ .nil → Stands (p.machine.frames.size - 1) (f.next + 1) m₂ ∧
                  ∀ k < i.c, m₂.reg f (i.a + 3 + k) = results.getD k .nil) := by
  have hheedful := h.heedful hhosts htask
  have horderly := h.orderly hhosts htask
  obtain ⟨code, f', ha⟩ := hheedful.active
  cases hback.symm.trans ha.back
  obtain ⟨ν, hν, -⟩ := h.authored.mindful ha.frame_mem
  have hloop := hν.iterates hi hop hj hstart
  have hsize : p.machine.frames.size = p.machine.frames.size - 1 + 1 := by
    have hpos := ha.size_pos
    omega
  obtain ⟨k, hk, hkop, htarget⟩ := hloop.entry
  have hjumped := fun fuel => ensures_jumped fuel ha hk hkop htarget
  have hentered : ∀ m₁, Advances p.machine m₁ → InLoop f (p.machine.frames.size - 1) n i.a
      (p.machine.reg f i.a) (p.machine.reg f (i.a + 1)) (p.machine.reg f (i.a + 2)) m₁ := by
    intro m₁ hadvances
    obtain ⟨fuel, hrun⟩ := id hadvances
    obtain ⟨-, hstack, hopened, hframes⟩ := (hjumped fuel).of_ok hrun
    obtain ⟨hstands, hback₁⟩ := stands_modify ha.back hsize hframes
    have hreg : ∀ r, m₁.reg f r = p.machine.reg f r := fun r => by rw [reg, hstack, reg]
    have hheedful₁ := hheedful.advances hadvances
    obtain ⟨i', op', hi', hop', hminds⟩ := hν.words n (Prototype.lt_size_of_word hi)
    cases hi.symm.trans hi'
    cases hop.symm.trans hop'
    have hunopened := hheedful₁.unopened hback₁ hν hi hop (by simp)
      (hminds.loops (.inr (.inr (.inl rfl)))).2
    exact ⟨hheedful₁, horderly.advances hadvances, hstands,
      .start hback₁ hstands.1 rfl hunopened, hreg _, hreg _, hreg _⟩
  refine ⟨hloop.names, ?_, fun calls m hcalls => ?_⟩
  · rcases ensures_iff_run.mp (hjumped 0) with ⟨o, m', hrun, rfl, -⟩ | ⟨_, _, _, hfalse⟩
    · exact ⟨m', .entered ⟨0, hrun⟩⟩
    · exact hfalse.elim
  · obtain ⟨c, hcontrols, hround⟩ := hcalls.inLoop hloop hentered
    obtain ⟨code', g, hg, hsame, hnext, hsite⟩ := hround.site hloop
    refine ⟨c, hcontrols, hround.stands, ⟨g, hg.back, hsite⟩, fun m₁ hcall => ?_⟩
    obtain ⟨results, hresponds, hanswered, hregs⟩ := hround.answered hloop hcall
    have hfirst : m₁.reg f (i.a + 3) = results.getD 0 .nil :=
      hregs 0 (Nat.pos_of_ne_zero hloop.names)
    obtain ⟨hexists, hdecided⟩ := hanswered.decided hloop
    rw [hfirst] at hdecided
    refine ⟨results, hresponds, hexists, fun m₂ hadvances => ⟨(hdecided m₂ hadvances).1, fun hne => ?_⟩⟩
    obtain ⟨hbody, hothers⟩ := (hdecided m₂ hadvances).2 hne
    exact ⟨hbody.stands, fun k hk => (hothers _ (by omega)).trans (hregs k hk)⟩

/-- A loop over an iterator that is the argument of the program, as its state and its control value
are. -/
theorem iterations_argument : ∃ (p : Moment) (f : Frame) (i j : Instruction) (n : Nat) (v : Value),
    (∀ f ∈ (#[] : Array HostFunction), HostFunction.Honest f) ∧ Reached {} #[] p ∧ p.task = .loop ∧
    p.machine.frames.back? = some f ∧ f.prototype.chunk.code[n]? = some i ∧
    i.opcode? = some .iterCall ∧ f.prototype.chunk.code[n + 1]? = some j ∧
    (n : Int) + 2 + j.signedBx = f.next + 1 ∧ v = .native (.base .type) ∧
    ∃ m g, Iterations (p.machine.frames.size - 1) f.next n p.machine [] m ∧
      m.frames.back? = some g ∧ CallSite g m (f.base + i.a + 3) v [v, v] (some i.c) := by
  have hhosts : ∀ f ∈ (#[] : Array HostFunction), HostFunction.Honest f := by simp
  have hsizes : (compile "for k in ..., ..., ... do end" "text").toOption.map (fun p =>
      (p.registers, p.variadic, p.params)) = some (6, true, 0) := by decide +kernel
  have hloads : (compile "for k in ..., ..., ... do end" "text").toOption.map (fun p =>
      (List.range 3).map fun k => p.chunk.code[k]?.map fun i => (i.opcode?, i.a, i.c)) =
      some [some (some .vararg, 0, 2), some (some .vararg, 1, 2), some (some .vararg, 2, 2)] := by
    decide +kernel
  have hcall : (compile "for k in ..., ..., ... do end" "text").toOption.map (fun p =>
      p.chunk.code[4]?.map fun i => (i.opcode?, i.a)) = some (some (some .iterCall, 0)) := by
    decide +kernel
  have hlast : (compile "for k in ..., ..., ... do end" "text").toOption.map (fun p =>
      p.chunk.code[5]?.map fun i => i.signedBx) = some (some (-2)) := by decide +kernel
  cases hp : compile "for k in ..., ..., ... do end" "text" with
  | error e =>
    rw [hp] at hsizes
    cases hsizes
  | ok q =>
    rw [hp] at hsizes hloads hcall hlast
    obtain ⟨hregisters, hrest⟩ := Prod.mk.inj (Option.some.inj hsizes)
    obtain ⟨hvariadic, hparams⟩ := Prod.mk.inj hrest
    have hword : ∀ k < 3, ∃ i, q.chunk.code[k]? = some i ∧ i.opcode? = some .vararg ∧ i.a = k ∧
        i.c = 2 := by
      intro k hk
      have hget := congrArg (fun l : List (Option (Option Opcode × Nat × Nat)) => l[k]?)
        (Option.some.inj hloads)
      match k with
      | 0 | 1 | 2 =>
        obtain ⟨i, hi, heq⟩ := Option.map_eq_some_iff.mp (Option.some.inj hget)
        obtain ⟨hop, heq⟩ := Prod.mk.inj heq
        exact ⟨i, hi, hop, (Prod.mk.inj heq).1, (Prod.mk.inj heq).2⟩
    obtain ⟨i, hi, heq⟩ := Option.map_eq_some_iff.mp (Option.some.inj hcall)
    obtain ⟨hop, ha⟩ := Prod.mk.inj heq
    obtain ⟨j, hj, hback⟩ := Option.map_eq_some_iff.mp (Option.some.inj hlast)
    have hplain : ∀ v ∈ [Value.native (.base .type)], v.Plain := by
      rintro v (_ | ⟨_, ⟨⟩⟩)
      trivial
    obtain ⟨code, f, m, hreached, hactive, rfl, hnext, -, hextra⟩ :=
      exists_reached_main hp (by omega) hplain (by decide) 3
    rw [if_pos hvariadic, hparams] at hextra
    have harg : f.extra.getD 0 .nil = .native (.base .type) := by
      rw [Array.getD_eq_getD_getElem?, ← Array.getElem?_toList, hextra]
      rfl
    obtain ⟨m', hm', hlast', hregs⟩ :=
      hreached.takesExtras hhosts (by rw [hactive.back, ← hnext]) hword (Nat.le_refl 3)
    rw [harg] at hregs
    have hstart : ((4 : Nat) : Int) + 2 + j.signedBx = (3 : Nat) + 1 := by rw [hback]; rfl
    obtain ⟨-, ⟨m₁, hentered⟩, hcalls⟩ := hm'.iterations hhosts rfl hlast' hi hop hj hstart
    obtain ⟨c, hcontrols, -, ⟨g, hg, hsite⟩, -⟩ := hcalls [] m₁ hentered
    obtain rfl := hcontrols.eq_first rfl
    have hvalue : ∀ r < 3, m'.reg { f with next := 3 } r = .native (.base .type) := hregs
    rw [show m'.reg { f with next := 3 } i.a = _ from hvalue i.a (by omega),
      show m'.reg { f with next := 3 } (i.a + 1) = _ from hvalue (i.a + 1) (by omega),
      show m'.reg { f with next := 3 } (i.a + 2) = _ from hvalue (i.a + 2) (by omega)] at hsite
    exact ⟨_, _, i, j, 4, _, hhosts, hm', rfl, hlast', hi, hop, hj, hstart, rfl, m₁, g, hentered, hg,
      hsite⟩

end Machine
end LuaMachine
