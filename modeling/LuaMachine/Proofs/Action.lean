import LuaMachine.Fault
/-! # Actions that succeed

An action over a state is looked at when it succeeds: what it gives and the state after it. A
sequence succeeds when its parts do one after the other, so each equation here takes one action
apart. The analysis of names, the parser and the compiler are such actions.

* `bind_ok`, `pure_ok`, `throw_ok` and the like: the actions of the monad.
* `forM_ok`: an action repeated for each element of a list.
-/
set_option autoImplicit false

namespace LuaMachine

variable {ε σ α β : Type} {st st' st'' : σ}

theorem bind_ok {x : EStateM ε σ α} {f : α → EStateM ε σ β} {b : β} :
    (x >>= f) st = .ok b st'' ↔ ∃ a st', x st = .ok a st' ∧ f a st' = .ok b st'' := by
  change EStateM.bind x f st = _ ↔ _
  unfold EStateM.bind
  cases hx : x st with
  | ok a st' =>
    constructor
    · intro h
      exact ⟨a, st', rfl, h⟩
    · rintro ⟨a', st₁, hok, h⟩
      cases hok
      exact h
  | error e st' => simp

theorem bind_of_ok {x : EStateM ε σ α} {f : α → EStateM ε σ β} {a : α} (h : x st = .ok a st') :
    (x >>= f) st = f a st' := by
  change EStateM.bind x f st = _
  rw [EStateM.bind, h]

theorem bind_of_error {x : EStateM ε σ α} {f : α → EStateM ε σ β} {e : ε}
    (h : x st = .error e st') : (x >>= f) st = .error e st' := by
  change EStateM.bind x f st = _
  rw [EStateM.bind, h]

theorem pure_ok {a b : α} : (pure a : EStateM ε σ α) st = .ok b st' ↔ b = a ∧ st' = st := by
  change EStateM.Result.ok a st = _ ↔ _
  simp [eq_comm]

theorem get_ok {a : σ} : (get : EStateM ε σ σ) st = .ok a st' ↔ a = st ∧ st' = st := by
  change EStateM.Result.ok st st = _ ↔ _
  simp [eq_comm]

theorem set_ok {new : σ} {a : PUnit} :
    (set new : EStateM ε σ PUnit) st = .ok a st' ↔ st' = new := by
  change EStateM.Result.ok _ new = _ ↔ _
  simp [eq_comm]

theorem modify_ok {f : σ → σ} {a : PUnit} :
    (modify f : EStateM ε σ PUnit) st = .ok a st' ↔ st' = f st := by
  change EStateM.Result.ok _ (f st) = _ ↔ _
  simp [eq_comm]

theorem throw_ok {e : ε} {a : α} :
    (throw e : EStateM ε σ α) st = .ok a st' ↔ False := by
  change EStateM.Result.error e st = _ ↔ _
  simp

/-- Repeating an action for each element of a list. -/
theorem forM_ok {f : α → EStateM ε σ Unit} {a : α} {as : List α} {u : Unit}
    (h : (a :: as).forM f st = .ok u st') :
    ∃ st₁, f a st = .ok () st₁ ∧ as.forM f st₁ = .ok u st' := by
  simp only [List.forM_eq_forM, List.forM_cons, bind_ok] at h
  obtain ⟨_, st₁, ha, h⟩ := h
  exact ⟨st₁, ha, h⟩

end LuaMachine
