import LuaMachine.Machine.Run
/-! # What a computation ensures

A computation on a machine ends with a value or with a fault, and in both cases it leaves a machine.

* `Machine.Ensures`: what holds of the value and the machine, or of the fault and the machine.
* one rule for each way to put computations together, as an equivalence that `simp` can use.
-/
set_option autoImplicit false

namespace LuaMachine
namespace Machine

variable {α β : Type}

/-- Started in `m`, the computation ends as `Q` says, or with a fault as `E` says. -/
def Ensures (m : Machine) (x : Exec α) (Q : α → Machine → Prop) (E : Fault → Machine → Prop) :
    Prop :=
  match x.run m with
  | .ok a m' => Q a m'
  | .error e m' => E e m'

variable {m : Machine} {x : Exec α} {Q Q' : α → Machine → Prop} {E E' : Fault → Machine → Prop}

theorem Ensures.mono (h : m.Ensures x Q E) (hQ : ∀ a m', Q a m' → Q' a m')
    (hE : ∀ e m', E e m' → E' e m') : m.Ensures x Q' E' := by
  unfold Ensures at h ⊢
  split
  next a m' hx =>
    rw [hx] at h
    exact hQ a m' h
  next e m' hx =>
    rw [hx] at h
    exact hE e m' h

theorem Ensures.of_forall (hQ : ∀ a m', Q a m') (hE : ∀ e m', E e m') : m.Ensures x Q E := by
  unfold Ensures
  split
  next a m' _ => exact hQ a m'
  next e m' _ => exact hE e m'

theorem Ensures.mono_ok (h : m.Ensures x Q E) (hQ : ∀ a m', Q a m' → Q' a m') :
    m.Ensures x Q' E :=
  h.mono hQ fun _ _ he => he

theorem Ensures.and (h : m.Ensures x Q E) (h' : m.Ensures x Q' E') :
    m.Ensures x (fun a m' => Q a m' ∧ Q' a m') fun e m' => E e m' ∧ E' e m' := by
  unfold Ensures at h h' ⊢
  split
  next a m' hx =>
    rw [hx] at h h'
    exact ⟨h, h'⟩
  next e m' hx =>
    rw [hx] at h h'
    exact ⟨h, h'⟩

/-- The computation ends one way or the other. -/
theorem ensures_iff_run :
    m.Ensures x Q E ↔
      (∃ a m', x.run m = .ok a m' ∧ Q a m') ∨ ∃ e m', x.run m = .error e m' ∧ E e m' := by
  unfold Ensures
  cases hx : x.run m with
  | ok a m' =>
    refine ⟨fun h => .inl ⟨a, m', rfl, h⟩, ?_⟩
    rintro (⟨a', m'', heq, h⟩ | ⟨_, _, heq, _⟩)
    · cases heq
      exact h
    · cases heq
  | error e m' =>
    refine ⟨fun h => .inr ⟨e, m', rfl, h⟩, ?_⟩
    rintro (⟨_, _, heq, _⟩ | ⟨e', m'', heq, h⟩)
    · cases heq
    · cases heq
      exact h

/-- How the computation ends may be used as well. -/
theorem Ensures.run_eq (h : m.Ensures x Q E) :
    m.Ensures x (fun a m' => Q a m' ∧ x.run m = .ok a m') fun e m' => E e m' ∧ x.run m = .error e m' := by
  rcases ensures_iff_run.1 h with ⟨a, m', hrun, hq⟩ | ⟨e, m', hrun, he⟩
  · exact ensures_iff_run.2 (.inl ⟨a, m', hrun, hq, hrun⟩)
  · exact ensures_iff_run.2 (.inr ⟨e, m', hrun, he, hrun⟩)

/-! ## Rules -/

@[simp]
theorem ensures_pure (a : α) : m.Ensures (pure a) Q E ↔ Q a m := Iff.rfl

@[simp]
theorem ensures_bind (f : α → Exec β) (Q : β → Machine → Prop) :
    m.Ensures (x >>= f) Q E ↔ m.Ensures x (fun a m' => m'.Ensures (f a) Q E) E := by
  simp only [Ensures, EStateM.run_bind]
  cases x.run m with
  | ok a m' => exact Iff.rfl
  | error e m' => exact Iff.rfl

@[simp]
theorem ensures_map (f : α → β) (Q : β → Machine → Prop) :
    m.Ensures (f <$> x) Q E ↔ m.Ensures x (fun a m' => Q (f a) m') E := by
  rw [← bind_pure_comp]
  exact ensures_bind _ _

@[simp]
theorem ensures_get (Q : Machine → Machine → Prop) : m.Ensures get Q E ↔ Q m m := Iff.rfl

@[simp]
theorem ensures_modify (f : Machine → Machine) (Q : Unit → Machine → Prop) :
    m.Ensures (modify f) Q E ↔ Q () (f m) := Iff.rfl

@[simp]
theorem ensures_modifyGet (f : Machine → α × Machine) :
    m.Ensures (modifyGet f) Q E ↔ Q (f m).1 (f m).2 := Iff.rfl

@[simp]
theorem ensures_throw (e : Fault) : m.Ensures (throw e) Q E ↔ E e m := Iff.rfl

@[simp]
theorem ensures_raise (e : RuntimeError) : m.Ensures (raise e) Q E ↔ E (.runtime e) m := Iff.rfl

@[simp]
theorem ensures_tryCatch (h : Fault → Exec α) :
    m.Ensures (tryCatch x h) Q E ↔ m.Ensures x Q fun e m' => m'.Ensures (h e) Q E := by
  show m.Ensures (EStateM.tryCatch x h) Q E ↔ _
  unfold Ensures
  delta EStateM.tryCatch EStateM.run
  cases x m with
  | ok a m' => exact Iff.rfl
  | error e m' => exact Iff.rfl

@[simp]
theorem ensures_ite (c : Prop) [Decidable c] (y : Exec α) :
    m.Ensures (if c then x else y) Q E ↔
      (c → m.Ensures x Q E) ∧ (¬ c → m.Ensures y Q E) := by
  split
  next hc => simp [hc]
  next hc => simp [hc]

theorem ensures_ofExcept (r : Except RuntimeError α) (hok : ∀ a, r = .ok a → Q a m)
    (herror : ∀ e, r = .error e → E (.runtime e) m) : m.Ensures (ofExcept r) Q E := by
  cases r with
  | ok a => exact hok a rfl
  | error e => exact herror e rfl

end Machine
end LuaMachine
