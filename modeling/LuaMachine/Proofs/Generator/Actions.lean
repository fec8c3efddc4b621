import LuaMachine.Generator.Emission
import LuaMachine.Proofs.Action
/-! # Compiling actions

What single actions of the compiler give when they succeed, and the state after them.

* `State.current`, `State.outer`: the scope that instructions go to, and those around it.
* `scope_ok`, `onScope_ok`, `emit_ok` and the like: what single actions do to the state.
-/
set_option autoImplicit false

namespace LuaMachine
namespace Generator

theorem defect_ok {α : Type} {text : String} {a : α} {st st' : State} :
    (defect text : Gen α) st = .ok a st' ↔ False :=
  throw_ok

/-! ## The scopes of a state -/

namespace State

/-- The scope of the innermost function. -/
def current (st : State) : FunctionScope := st.scopes.headD default

def outer (st : State) : List FunctionScope := st.scopes.tail

def mapCurrent (st : State) (f : FunctionScope → FunctionScope) : State :=
  { st with scopes := st.scopes.modifyHead f }

/-- The number of registers in use. -/
def top (st : State) : Nat := st.current.free.toNat

/-- The number of variables. -/
def level (st : State) : Nat := st.current.locals.size

variable {st : State} {f : FunctionScope → FunctionScope}

theorem scopes_eq (h : st.scopes ≠ []) : st.scopes = st.current :: st.outer := by
  unfold current outer
  cases hs : st.scopes with
  | nil => exact absurd hs h
  | cons s rest => rfl

theorem scopes_mapCurrent_ne (h : st.scopes ≠ []) : (st.mapCurrent f).scopes ≠ [] := by
  rw [mapCurrent, scopes_eq h]
  simp

theorem current_mapCurrent (h : st.scopes ≠ []) : (st.mapCurrent f).current = f st.current := by
  unfold mapCurrent
  rw [scopes_eq h]
  rfl

@[simp] theorem outer_mapCurrent : (st.mapCurrent f).outer = st.outer := by
  unfold mapCurrent outer
  cases st.scopes <;> rfl

@[simp] theorem captured_mapCurrent : (st.mapCurrent f).captured = st.captured := rfl

end State

/-! ## Single actions -/

section Single

variable {α : Type} {st st' : State}

theorem scope_ok {s : FunctionScope} : scope st = .ok s st' ↔ s = st.current ∧ st' = st := by
  simp only [scope, bind_ok, get_ok, pure_ok, State.current]
  constructor
  · rintro ⟨a, b, ⟨rfl, rfl⟩, rfl, rfl⟩
    exact ⟨rfl, rfl⟩
  · rintro ⟨rfl, rfl⟩
    exact ⟨_, _, ⟨rfl, rfl⟩, rfl, rfl⟩

theorem modifyScope_ok {f : FunctionScope → FunctionScope} {a : Unit} :
    modifyScope f st = .ok a st' ↔ st' = st.mapCurrent f := modify_ok

theorem onScope_ok {f : FunctionScope → Except CompileFault (FunctionScope × α)} {a : α}
    (h : onScope f st = .ok a st') :
    ∃ s, f st.current = .ok (s, a) ∧ st' = st.mapCurrent fun _ => s := by
  simp only [onScope, bind_ok, scope_ok] at h
  obtain ⟨s, st₁, ⟨hs, hst⟩, h⟩ := h
  subst hs hst
  cases hf : f st₁.current with
  | error e => simp only [hf, throw_ok] at h
  | ok p =>
    simp only [hf, bind_ok, modifyScope_ok, pure_ok] at h
    obtain ⟨_, _, rfl, rfl, rfl⟩ := h
    exact ⟨_, rfl, rfl⟩

theorem onScope'_ok {f : FunctionScope → Except CompileFault FunctionScope} {u : Unit}
    (h : onScope' f st = .ok u st') :
    ∃ s, f st.current = .ok s ∧ st' = st.mapCurrent fun _ => s := by
  obtain ⟨s, hs, rfl⟩ := onScope_ok h
  cases hf : f st.current with
  | error e => simp [hf, Except.map] at hs
  | ok new =>
    simp only [hf, Except.map, Except.ok.injEq, Prod.mk.injEq, and_true] at hs
    exact ⟨s, congrArg Except.ok hs, rfl⟩

end Single

end Generator
end LuaMachine
