import LuaMachine.Proofs.Machine.Slots
/-! # Instructions one after the other

The loop of the machine, seen as a sequence of machines: after so many instructions it goes on with
a later machine, or it ends for good. A budget that is too small for that is used up on the way.

* `Machine.Runs`, `Machine.Leads`: the machines that the loop comes to.
* `Machine.Halts`: the machines at which the loop ends with the next instruction.
* `Machine.Fails`: the loop comes to an error that a script can catch.
* `Machine.Tries`: one or the other, as there is a value or none.
-/
set_option autoImplicit false

namespace LuaMachine
namespace Machine

/-! ## Machines on the way -/

/-- After `n` instructions the loop goes on with the machine `m'`. -/
structure Runs (n : Nat) (m m' : Machine) : Prop where
  later : ∀ fuel, (execute (fuel + n)).run m = (execute fuel).run m'
  before : ∀ fuel < n, ∃ m'', (execute fuel).run m = .error .outOfSteps m''

/-- After `n` instructions at least, the loop goes on with a machine of which `Q` holds. -/
def Leads (n : Nat) (m : Machine) (Q : Machine → Prop) : Prop :=
  ∃ k m', n ≤ k ∧ Runs k m m' ∧ Q m'

/-- The next instruction ends the loop. -/
def Halts (m : Machine) (r : EStateM.Result Fault Machine Nat) : Prop :=
  ∀ fuel, (execute (fuel + 1)).run m = r

/-- The loop ends with an error value, which has a text. -/
def Fails (m : Machine) : Prop :=
  Leads 0 m fun m' => ∃ text m'', Halts m' (.error (.script (.str text) text) m'')

/-- If there is a value, the loop goes on with a machine of which `Q` holds; if an error is why there
is none, the loop ends with an error too. -/
def Tries {α : Type} (x : Option α) (m : Machine) (Q : α → Machine → Prop) : Prop :=
  match x with
  | some a => Leads 0 m (Q a)
  | none => Fails m

variable {m m' m'' : Machine} {n k : Nat} {Q Q' : Machine → Prop}
  {r : EStateM.Result Fault Machine Nat}

theorem Runs.refl (m : Machine) : Runs 0 m m :=
  ⟨fun _ => rfl, fun _ h => absurd h (Nat.not_lt_zero _)⟩

theorem Runs.trans (h : Runs n m m') (h' : Runs k m' m'') : Runs (n + k) m m'' where
  later fuel := by
    rw [Nat.add_comm n k, ← Nat.add_assoc, h.later, h'.later]
  before fuel hlt := by
    by_cases hn : fuel < n
    · exact h.before fuel hn
    · obtain ⟨m₁, hm₁⟩ := h'.before (fuel - n) (by omega)
      refine ⟨m₁, ?_⟩
      rw [← hm₁, ← h.later, Nat.sub_add_cancel (Nat.le_of_not_lt hn)]

namespace Leads

theorem here (h : Q m) : Leads 0 m Q := ⟨0, m, Nat.le_refl _, .refl m, h⟩

theorem mono (h : Leads n m Q) (hQ : ∀ m', Q m' → Q' m') : Leads n m Q' := by
  obtain ⟨k, m', hk, hruns, hm'⟩ := h
  exact ⟨k, m', hk, hruns, hQ m' hm'⟩

theorem weaken (h : Leads n m Q) (hk : k ≤ n) : Leads k m Q := by
  obtain ⟨j, m', hj, hruns, hm'⟩ := h
  exact ⟨j, m', Nat.le_trans hk hj, hruns, hm'⟩

theorem trans (h : Leads n m Q) (h' : ∀ m', Q m' → Leads k m' Q') : Leads (n + k) m Q' := by
  obtain ⟨j, m', hj, hruns, hm'⟩ := h
  obtain ⟨j', m'', hj', hruns', hm''⟩ := h' m' hm'
  exact ⟨j + j', m'', Nat.add_le_add hj hj', hruns.trans hruns', hm''⟩

/-- How many instructions come first does not matter. -/
theorem andThen (h : Leads n m Q) (h' : ∀ m', Q m' → Leads k m' Q') : Leads k m Q' :=
  (h.trans h').weaken (Nat.le_add_left k n)

theorem andFails (h : Leads n m Q) (h' : ∀ m', Q m' → Fails m') : Fails m := h.andThen h'

end Leads

namespace Tries

variable {α β : Type} {x : Option α} {R R' : α → Machine → Prop}

theorem mono (h : Tries x m R) (hR : ∀ a m', x = some a → R a m' → R' a m') : Tries x m R' := by
  cases x with
  | some a => exact Leads.mono h fun m' => hR a m' rfl
  | none => exact h

/-- Further instructions that cannot fail. -/
theorem andThen (h : Tries x m R) (h' : ∀ a m', x = some a → R a m' → Leads 0 m' (R' a)) :
    Tries x m R' := by
  cases x with
  | some a => exact Leads.andThen h fun m' => h' a m' rfl
  | none => exact h

theorem bind {g : α → Option β} {S : β → Machine → Prop} (h : Tries x m R)
    (h' : ∀ a m', x = some a → R a m' → Tries (g a) m' S) : Tries (x >>= g) m S := by
  cases x with
  | none => exact h
  | some a =>
    show Tries (g a) m S
    cases hg : g a with
    | some b =>
      refine Leads.andThen h fun m' hm' => ?_
      have hnext := h' a m' rfl hm'
      rw [hg] at hnext
      exact hnext
    | none =>
      refine Leads.andFails h fun m' hm' => ?_
      have hnext := h' a m' rfl hm'
      rw [hg] at hnext
      exact hnext

theorem map {g : α → β} {S : β → Machine → Prop} (h : Tries x m R)
    (h' : ∀ a m', x = some a → R a m' → S (g a) m') : Tries (x.map g) m S := by
  cases x with
  | some a => exact Leads.mono h fun m' => h' a m' rfl
  | none => exact h

end Tries

/-- Some instructions first, whatever they are. -/
theorem Leads.tries {α : Type} {x : Option α} {R : α → Machine → Prop} (h : Leads n m Q)
    (h' : ∀ m', Q m' → Tries x m' R) : Tries x m R := by
  cases x with
  | some a => exact h.andThen h'
  | none => exact h.andFails h'

/-! ## One instruction -/

/-- The machine whose innermost frame has gone past its instruction, with what was shown of it. -/
def fetched (m : Machine) (shown : String) : Machine :=
  { m with
    output := shown
    frames := m.frames.modify (m.frames.size - 1) fun f => { f with next := f.next + 1 } }

section
variable {f : Frame} {i : Instruction}

theorem trace_run (hback : m.frames.back? = some f) :
    ∃ shown, (trace : Exec Unit).run m = .ok () { m with output := shown } := by
  have h : m.Ensures trace (fun _ m' => ∃ shown, m' = { m with output := shown })
      fun _ _ => False := by
    simp only [trace, ensures_bind, ensures_frame, ensures_slots, write, ensures_modify, hback]
    exact ⟨fun _ _ => ⟨_, rfl⟩, by simp⟩
  rcases ensures_iff_run.mp h with ⟨_, m', hrun, shown, rfl⟩ | ⟨_, _, _, hfalse⟩
  · exact ⟨shown, hrun⟩
  · exact hfalse.elim

theorem fetch_run (hback : m.frames.back? = some f)
    (hword : f.prototype.chunk.code[f.next]? = some i) :
    (fetch : Exec Instruction).run m = .ok i (m.fetched m.output) := by
  simp only [fetch, frame, modifyFrame, EStateM.run_bind, EStateM.run_get, hback, EStateM.run_pure,
    EStateM.run_modify, hword]
  rfl

/-- The part of the loop that is left when the instruction is known. -/
theorem execute_fetched (hback : m.frames.back? = some f)
    (hword : f.prototype.chunk.code[f.next]? = some i) :
    ∃ shown, ∀ fuel, (execute (fuel + 1)).run m =
      (do
        let outcome ← located do
          match ← step i with
          | .call func argc wanted =>
            callSlot fuel func argc wanted
            return .next
          | outcome => return outcome
        match outcome with
        | .finished count => return count
        | _ => execute fuel : Exec Nat).run (m.fetched shown) := by
  by_cases htrace : m.options.trace = true
  · obtain ⟨shown, hshown⟩ := trace_run hback
    refine ⟨shown, fun fuel => ?_⟩
    rw [execute]
    simp only [EStateM.run_bind, EStateM.run_get, htrace, if_true, hshown]
    rw [fetch_run (m := { m with output := shown }) hback hword]
    rfl
  · refine ⟨m.output, fun fuel => ?_⟩
    rw [execute]
    simp only [EStateM.run_bind, EStateM.run_get, htrace, if_false, Bool.false_eq_true]
    have hfetch := fetch_run hback hword
    generalize (fetch : Exec Instruction).run m = r at hfetch
    subst hfetch
    rfl

/-! ## What comes of an instruction -/

theorem located_ok {α : Type} {x : Exec α} (a : α) (m' : Machine) (hx : x.run m = .ok a m') :
    (located x).run m = .ok a m' := by
  show (EStateM.tryCatch x _) m = _
  delta EStateM.tryCatch
  dsimp only
  rw [show x m = .ok a m' from hx]

theorem newText_run (s : String) (m : Machine) : ∃ m', (newText s).run m = .ok (.str s) m' := by
  unfold newText
  simp only [EStateM.run_bind, EStateM.run_get]
  split
  · exact ⟨_, rfl⟩
  · exact ⟨_, rfl⟩

theorem located_congr {α : Type} {x y : Exec α} (h : x.run m = y.run m) :
    (located x).run m = (located y).run m := by
  show (EStateM.tryCatch x _) m = (EStateM.tryCatch y _) m
  delta EStateM.tryCatch
  dsimp only
  rw [show x m = y m from h]

/-- An error gets a position and so becomes an error value with a text. -/
theorem located_runtime {α : Type} {x : Exec α}
    (hx : m.Ensures x (fun _ _ => False) fun e _ => ∃ error, e = .runtime error) :
    m.Ensures (located x) (fun _ _ => False) fun e _ => ∃ text, e = .script (.str text) text := by
  simp only [located, ensures_tryCatch]
  refine hx.mono (fun _ _ h => h) ?_
  rintro _ m' ⟨error, rfl⟩
  obtain ⟨m'', hm''⟩ := newText_run (m'.position ++ error.message) m'
  simp only [positioned, ensures_bind, ensures_get, ensures_throw, ensures_pure]
  exact ensures_iff_run.mpr (.inl ⟨_, m'', hm'', _, rfl⟩)

theorem leads_of_step (hback : m.frames.back? = some f)
    (hword : f.prototype.chunk.code[f.next]? = some i)
    (h : ∀ shown, (m.fetched shown).Ensures (step i) (fun o m' => o = .next ∧ Q m')
      fun _ _ => False) : Leads 1 m Q := by
  obtain ⟨shown, hrun⟩ := execute_fetched hback hword
  rcases ensures_iff_run.mp (h shown) with ⟨o, m', hstep, rfl, hm'⟩ | ⟨_, _, _, hfalse⟩
  · refine ⟨1, m', Nat.le_refl 1, ⟨fun fuel => ?_, fun fuel hlt => ?_⟩, hm'⟩
    · rw [hrun, EStateM.run_bind, located_ok .next m']
      rw [EStateM.run_bind, hstep]
      rfl
    · obtain rfl : fuel = 0 := by omega
      exact ⟨m, rfl⟩
  · exact hfalse.elim

theorem fails_of_step (hback : m.frames.back? = some f)
    (hword : f.prototype.chunk.code[f.next]? = some i)
    (h : ∀ shown, (m.fetched shown).Ensures (step i) (fun _ _ => False)
      fun e _ => ∃ error, e = .runtime error) : Fails m := by
  obtain ⟨shown, hrun⟩ := execute_fetched hback hword
  have herror : ∀ rest : Outcome → Exec Outcome,
      m.fetched shown |>.Ensures (step i >>= rest) (fun _ _ => False)
        fun e _ => ∃ error, e = .runtime error := fun rest => by
    rw [ensures_bind]
    exact (h shown).mono (fun _ _ hfalse => hfalse.elim) fun _ _ he => he
  rcases ensures_iff_run.mp (h shown) with ⟨_, _, _, hfalse⟩ | ⟨e, m', hstep, -⟩
  · exact hfalse.elim
  rcases ensures_iff_run.mp (located_runtime (herror pure)) with
    ⟨_, _, _, hfalse⟩ | ⟨_, m'', hlocated, text, rfl⟩
  · exact hfalse.elim
  refine .here ⟨text, m'', fun fuel => ?_⟩
  rw [hrun, EStateM.run_bind, located_congr (y := step i >>= pure), hlocated]
  rw [EStateM.run_bind, EStateM.run_bind, hstep]

theorem halts_of_step {R : Nat → Machine → Prop} (hback : m.frames.back? = some f)
    (hword : f.prototype.chunk.code[f.next]? = some i)
    (h : ∀ shown, (m.fetched shown).Ensures (step i)
      (fun o m' => ∃ count, o = .finished count ∧ R count m') fun _ _ => False) :
    ∃ count m', Halts m (.ok count m') ∧ R count m' := by
  obtain ⟨shown, hrun⟩ := execute_fetched hback hword
  rcases ensures_iff_run.mp (h shown) with ⟨_, m', hstep, count, rfl, hm'⟩ | ⟨_, _, _, hfalse⟩
  · refine ⟨count, m', fun fuel => ?_, hm'⟩
    rw [hrun, EStateM.run_bind, located_ok (.finished count) m']
    · rfl
    · rw [EStateM.run_bind, hstep]
      rfl
  · exact hfalse.elim

end

end Machine
end LuaMachine
