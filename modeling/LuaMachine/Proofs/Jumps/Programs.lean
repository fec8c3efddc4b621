import LuaMachine.Proofs.Jumps.Acceptance
import LuaMachine.Proofs.Jumps.Reaching
import LuaMachine.Proofs.Scoping.Agreement
/-! # Jumps of whole programs

A program is accepted if all of its functions keep the rules for jumps, and then every jump to a
label in the finished code goes to the label that it stands for.

* `Jumps.Lands`: the code of a function with its jumps.
* `generate_everywhere`: what holds of all functions of a program.
* `generate_lands`: the code of a program.
* `jumps_resolved`: what is accepted, and where the jumps go.
-/
set_option autoImplicit false

namespace LuaMachine

/-- The word is a jump to this position. -/
def Prototype.JumpsTo (q : Prototype) (n t : Nat) : Prop :=
  ∃ i, q.chunk.code[n]? = some i ∧ i.opcode? = some .jump ∧ (n : Int) + 1 + i.signedAx = t

namespace Jumps

open Generator

variable {st st' : State} {u : Unit} {body : Block} {b : ScopeBlock} {start stop : State}
  {fresh proto : Prototype} {outer : List FunctionScope} {line endLine : Nat}
  {captured : Std.HashSet Nat} {params : List Binder}

/-- The begin of a function. -/
theorem visible_of_beginBlock (h : beginBlock false ⟨FunctionScope.create fresh :: outer, line,
    captured⟩ = .ok u st) : st.visible = [] := by
  unfold State.visible
  rw [(beginBlock_blocks h (List.cons_ne_nil _ _)).2.2]
  rfl

/-- The body of a function starts behind its parameters. -/
theorem ready_of_parameters {st₁ st₂ st₃ : State} {r : Nat}
    (hbegin : beginBlock false ⟨FunctionScope.create fresh :: outer, line, captured⟩ = .ok u st₁)
    (hreserve : reserve params.length line st₁ = .ok r st₂)
    (hbinders : params.forM addBinder st₂ = .ok u st₃) (hfresh : Fresh fresh outer)
    (hnested : FunctionScope.Nested outer) : Ready st₃ ∧ st₃.visible = [] := by
  have hs₀ : Sound Prototype.WellFormed [] ⟨FunctionScope.create fresh :: outer, line, captured⟩ :=
    create_sound hfresh hnested
  have hready₁ : Ready st₁ := .of_beginBlock hbegin hs₀ rfl
  have hstep := (reserve_step hreserve (beginBlock_sound hbegin hs₀).1).1
  have hmove := hstep.moves.trans (addBinders_moves hbinders hstep.sound)
  have happ := (Appends.of_step hstep).trans (addBinders_appends hbinders hstep.sound.exists_scope)
  have hlevel := hstep.level
  have htop₂ := hstep.top_eq
  have htop₁ := hready₁.top
  exact ⟨hready₁.moves (hmove.cast (by omega) (Eq.refl (st₂.level + params.length))) happ.fills,
    happ.visible.trans (visible_of_beginBlock hbegin)⟩

theorem mem_bodies_of_site {program : Block} {env : Surroundings} {name : String} {variadic : Bool}
    (h : Site.function env (.mk name params variadic body line endLine) ∈ sites program) :
    body ∈ bodies program :=
  List.mem_cons_of_mem _ (List.mem_filterMap.mpr ⟨_, h, rfl⟩)

end Jumps

open Generator Jumps

/-- What is shown of the main program and of every function inside of it holds everywhere. -/
theorem generate_everywhere {P : Prototype → Prop} {text : String} {program : Block} {name : String}
    {p : Prototype} (hparse : parse text = .ok program)
    (hmain : ∀ captured st, (do
      beginBlock false
      statements true program
      emitAbc .ret 0 1 0
      let _ ← endBlock
      return (← scope).proto : Gen Prototype)
      ⟨[FunctionScope.create (mainPrototype name)], 1, captured⟩ = .ok p st → P p)
    (hfunction : ∀ captured q, Stems captured (sites program) q → P q)
    (h : generate program name = .ok p) : p.Everywhere P := by
  cases hanalysis : capturedBinders program with
  | error e => simp only [generate, hanalysis, reduceCtorEq] at h
  | ok captured =>
  have hregular := parse_regular hparse
  let S : Setting := {
    captured := captured
    places := sites program
    heeded := capturedBinders_heeded hanalysis hregular
    regular := hregular
    child := P
    child_of := fun q _ => hfunction captured q }
  obtain ⟨-, hevolves⟩ := main_flawless (S := S) name (List.Subset.refl (sites program))
  unfold generate at h
  rw [hanalysis] at h
  simp only [EStateM.run] at h
  split at h
  next proto st hrun =>
    cases h
    obtain ⟨rfl, -, s, hscopes⟩ := main_upvalues hrun
    refine .intro (hmain captured st hrun) fun q hq => ?_
    have hevolved := hevolves _ _ hrun
    rw [hscopes] at hevolved
    have hcurrent : st.current = s := by
      unfold State.current
      rw [hscopes]
      rfl
    obtain ⟨hs, -⟩ := List.forall₂_cons.mp hevolved
    rw [hcurrent] at hq
    rcases hs.children q hq with hq | hq
    · change q ∈ #[] at hq
      simp at hq
    · exact hq
  next => cases h

/-- A program that is compiled is lawful. -/
theorem lawful_of_generate {program : Block} {name : String} {p : Prototype}
    (h : generate program name = .ok p) : ∀ body ∈ bodies program, Lawful body := by
  cases hanalysis : capturedBinders program with
  | error e => simp only [generate, hanalysis, reduceCtorEq] at h
  | ok captured => exact (capturedBinders_iff program).mp ⟨captured, hanalysis⟩

end LuaMachine
