import LuaMachine.Proofs.Flow.Bodies
import LuaMachine.Proofs.Jumps.Programs
/-! # Functions with their variables

The words of every function of a compiled program have notes, and all of them go where the variables
with open upvalues are minded.

* `Sites.Enclosed`: the places of a function include those of its body.
* `Generator.noted_of_whole`: from the first statement of a function to its end.
* `generate_mindful`: all functions of a program.
-/
set_option autoImplicit false

namespace LuaMachine

/-! ## Places of bodies -/

namespace Sites

/-- With a function there are the places in its body. -/
def Enclosed (xs : List Site) : Prop :=
  ∀ env name params variadic body line endLine,
    Site.function env (.mk name params variadic body line endLine) ∈ xs →
    stmts (env.inside params) body ⊆ xs

theorem Enclosed.nil : Enclosed [] := fun _ _ _ _ _ _ _ h => (by cases h)

theorem Enclosed.append {xs ys : List Site} (h : Enclosed xs) (h' : Enclosed ys) :
    Enclosed (xs ++ ys) := by
  intro env name params variadic body line endLine hmem
  rcases List.mem_append.mp hmem with hmem | hmem
  · exact List.subset_append_of_subset_left _ (h _ _ _ _ _ _ _ hmem)
  · exact List.subset_append_of_subset_right _ (h' _ _ _ _ _ _ _ hmem)

/-- Places that are no functions. -/
theorem Enclosed.of_forall {xs : List Site} (h : ∀ s ∈ xs, ∀ env f, s ≠ .function env f) :
    Enclosed xs :=
  fun _ _ _ _ _ _ _ hmem => absurd rfl (h _ hmem _ _)

mutual

theorem enclosed_expr (env : Surroundings) : (e : Expr) → Enclosed (expr env e)
  | .literal _ _ => .nil
  | .str _ _ => .nil
  | .unary _ e _ => enclosed_expr env e
  | .binary _ l r _ => (enclosed_expr env l).append (enclosed_expr env r)
  | .name n _ => .of_forall (by simp [expr])
  | .vararg _ => .nil
  | .paren e _ => enclosed_expr env e
  | .call f args _ => (enclosed_expr env f).append (enclosed_exprs env args)
  | .method e _ args _ => (enclosed_expr env e).append (enclosed_exprs env args)
  | .table fs _ => enclosed_fields env fs
  | .index e k _ => (enclosed_expr env e).append (enclosed_expr env k)
  | .function f => enclosed_function env f

theorem enclosed_exprs (env : Surroundings) : (es : List Expr) → Enclosed (exprs env es)
  | [] => .nil
  | e :: rest => (enclosed_expr env e).append (enclosed_exprs env rest)

theorem enclosed_field (env : Surroundings) : (f : Field) → Enclosed (field env f)
  | .item e => enclosed_expr env e
  | .pair k e => (enclosed_expr env k).append (enclosed_expr env e)

theorem enclosed_fields (env : Surroundings) : (fs : List Field) → Enclosed (fields env fs)
  | [] => .nil
  | f :: rest => (enclosed_field env f).append (enclosed_fields env rest)

theorem enclosed_function (env : Surroundings) : (f : Function) → Enclosed (function env f)
  | .mk name params variadic body line endLine => by
    have hbody := enclosed_stmts (env.inside params) body
    intro env' name' params' variadic' body' line' endLine' hmem
    rcases List.mem_cons.mp hmem with heq | hmem
    · cases heq
      exact List.subset_cons_self _ _
    · exact List.subset_cons_of_subset _ (hbody _ _ _ _ _ _ _ hmem)

theorem enclosed_branch (env : Surroundings) : (b : Branch) → Enclosed (branch env b)
  | .mk condition body => (enclosed_expr env condition).append (enclosed_stmts env body)

theorem enclosed_branches (env : Surroundings) : (bs : List Branch) → Enclosed (branches env bs)
  | [] => .nil
  | b :: rest => (enclosed_branch env b).append (enclosed_branches env rest)

theorem enclosed_stmt (env : Surroundings) : (s : Stmt) → Enclosed (stmt env s)
  | .expr e _ => enclosed_expr env e
  | .assign targets values _ =>
    ((Enclosed.of_forall (by simp)).append (enclosed_exprs env targets)).append
      (enclosed_exprs env values)
  | .locals _ values _ => enclosed_exprs env values
  | .localFunction b f _ => enclosed_function (env.declare [b]) f
  | .function target f _ =>
    (Enclosed.of_forall (by simp) : Enclosed [.target target]).append
      ((enclosed_expr env target).append (enclosed_function env f))
  | .block body _ => enclosed_stmts env body
  | .cond condition body more none _ =>
    (((enclosed_expr env condition).append (enclosed_stmts env body)).append
      (enclosed_branches env more)).append .nil
  | .cond condition body more (some otherwise) _ =>
    (((enclosed_expr env condition).append (enclosed_stmts env body)).append
      (enclosed_branches env more)).append (enclosed_stmts env otherwise)
  | .whileLoop condition body _ =>
    (enclosed_expr env condition).append (enclosed_stmts env.loop body)
  | .repeatLoop body condition _ =>
    (enclosed_stmts env.loop body).append (enclosed_expr (env.loop.after body) condition)
  | .numericFor b start stop none body _ =>
    (((enclosed_expr env start).append (enclosed_expr env stop)).append .nil).append
      (enclosed_stmts (env.counting.loop.declare [b]) body)
  | .numericFor b start stop (some step) body _ =>
    (((enclosed_expr env start).append (enclosed_expr env stop)).append
      (enclosed_expr env step)).append (enclosed_stmts (env.counting.loop.declare [b]) body)
  | .genericFor bs iterators body _ =>
    (Enclosed.of_forall (by simp) : Enclosed [.variables bs]).append
      ((enclosed_exprs env iterators).append (enclosed_stmts (env.counting.loop.declare bs) body))
  | .ret values _ => enclosed_exprs env values
  | .exit _ => .of_forall (by simp [stmt])
  | .goto _ _ => .nil
  | .label _ _ => .nil

theorem enclosed_stmts (env : Surroundings) : (ss : List Stmt) → Enclosed (stmts env ss)
  | [] => .nil
  | s :: rest => (enclosed_stmt env s).append (enclosed_stmts (env.declare s.declared) rest)

end

end Sites

/-! ## Whole functions -/

/-- The words have notes, and all of them go on. Every variable is seen by the words of its scope. -/
def Prototype.Mindful (p : Prototype) : Prop :=
  ∃ ν, p.Noted ν (fun _ => False) ∧ FunctionScope.Recorded p ν #[]

namespace Generator

open Prototype FunctionScope Jumps

variable {st st' : State} {u : Unit} {body : Block} {b : ScopeBlock} {start stop : State}
  {fresh proto : Prototype} {outer : List FunctionScope} {line endLine : Nat}
  {captured : Std.HashSet Nat} {params : List Binder} {ν : Nat → Note} {shut : Nat}

/-- In a lawful body every jump is fair, and none leaves. -/
theorem fair_of_lawful (h : Lawful body) :
    Fair (ofBlock .plain [] body) ∧ ∀ p ∈ ofBlock .plain [] body, ∀ name, ¬p.Leaves name :=
  ⟨fun p hp => ⟨false, [], (p.legal_iff.mp (h p hp)).1⟩, fun p hp => (p.legal_iff.mp (h p hp)).2⟩

/-- A scope in which nothing is declared yet. -/
theorem create_charted (hfresh : Fresh fresh outer) :
    Charted (fun _ => .full #[]) [] 0 ⟨FunctionScope.create fresh :: outer, line, captured⟩ := by
  have hsize : fresh.chunk.size = 0 := by
    rw [hfresh.chunk]
    rfl
  refine ⟨⟨List.cons_ne_nil _ _, ⟨⟨?_, ?_, ?_⟩, rfl, rfl, Nat.le_refl 0, ?_, trivial,
    ?_, ?_, ?_⟩, rfl⟩, ?_⟩
  · exact fun m hm => absurd (hsize ▸ hm) (Nat.not_lt_zero m)
  · exact fun m hm => absurd (hsize ▸ hm) (Nat.not_lt_zero m)
  · exact fun m hm => absurd (hsize ▸ hm) (Nat.not_lt_zero m)
  · exact fun k l hl => by cases hl
  · exact fun m hm => absurd (hsize ▸ hm) (Nat.not_lt_zero m)
  · intro r hr
    change r ∈ fresh.locals at hr
    rw [hfresh.locals] at hr
    exact absurd hr (Array.not_mem_empty r)
  · exact fun l hl => by simp [State.current, FunctionScope.create] at hl
  · intro k s hk
    have hzero : fresh.chunk.size = k + 1 := hk
    omega

/-- From behind the last statement of a function to its end. -/
theorem noted_of_ending (hc : Charting ν [] shut stop) (hblocks : stop.outline = [(0, false)])
    (hwaiting : stop.waiting = []) (hret : emitAbc .ret 0 1 0 stop = .ok u st)
    (hend : endBlock st = .ok b st') : st'.current.proto.Mindful := by
  obtain ⟨-, -, hsame, ν₁, hc₁, -⟩ := emitReturn_charted 0 hret hc (by omega) (by omega)
    (by omega) (fun _ => rfl) (Nat.zero_le _)
  obtain ⟨b', outer, hb, heq, houter⟩ := List.map_eq_cons_iff.mp hblocks
  obtain rfl := List.map_eq_nil_iff.mp houter
  obtain ⟨hlevel, hloop⟩ := Prod.mk.inj heq
  have hgotos : b'.gotos = [] := by
    unfold State.waiting State.gotos at hwaiting
    rw [hb] at hwaiting
    exact hwaiting
  have hb₁ := hsame.trans hb
  obtain ⟨rfl, -⟩ := endBlock_ok hend
  obtain ⟨ν₂, hfinished⟩ := finish_charted hc₁ hb₁ (fun _ => hgotos) (Nat.le_of_eq hlevel)
    (fun _ => Nat.zero_le _) (f := fun _ => st.current.endBlock.1) (by
      unfold FunctionScope.endBlock
      rw [hb₁]
      rfl)
  have hbreaks : b'.breaks = [] := by
    refine List.eq_nil_iff_forall_not_mem.mpr fun n hn => ?_
    have hloop' := (hfinished.breaks n hn).1
    rw [hloop] at hloop'
    cases hloop'
  have hnoted := hfinished.charted.noted
  have hlocals : (st.mapCurrent fun _ => st.current.endBlock.1).current.locals = #[] := by
    rw [hfinished.locals, hlevel, Array.extract_zero]
  have hfree : (st.mapCurrent fun _ => st.current.endBlock.1).current.Free (b'.breaks ++ []) =
      fun _ => False := by
    funext k
    unfold FunctionScope.Free
    rw [State.current_mapCurrent hc₁.alive, hbreaks]
    unfold FunctionScope.endBlock
    rw [hb₁]
    simp
  exact ⟨ν₂, hfree ▸ hnoted.code, hlocals ▸ hnoted.recorded⟩

/-- A function that is compiled as a whole. -/
theorem noted_of_whole (env : Surroundings) {st₁ st₂ st₃ : State} {u₁ u₂ u₃ : Unit}
    (hbegin : st₁.outline = [(0, false)]) (hnone : st₁.waiting = []) (hready : Ready st₁)
    (hc : Charted ν [] st₁.level st₁) (hvisible : st₁.visible = []) (hregular : ∀ s ∈ Sites.stmts env body, s.Regular)
    (hlawful : Lawful body) (hinner : statements true body st₁ = .ok u₁ st₂)
    (hline : setLine line st₂ = .ok u₂ st₃) (hret : emitAbc .ret 0 1 0 st₃ = .ok u₃ st)
    (hend : endBlock st = .ok b st') : st'.current.proto.Mindful := by
  obtain ⟨ps, hs⟩ := hready.sound
  obtain ⟨m, hmove⟩ := statementsSound closed_wellFormed true body _ _ _ _ hs hready.top hinner
  obtain ⟨hfair, hnever⟩ := fair_of_lawful hlawful
  have hhead : ∀ b ∈ st₁.current.blocks.head?, b.level = 0 := by
    intro b hb
    obtain ⟨b', outer, hblocks, heq, -⟩ := List.map_eq_cons_iff.mp hbegin
    rw [hblocks] at hb
    cases hb
    exact (Prod.mk.inj heq).1
  have hclean : Clean ν st₁ := fun L hL => by
    rw [hvisible] at hL
    cases hL
  obtain ⟨ν₂, shut, hcompletes, -⟩ := chartsBlock .plain body env _ _ _ _ _ _ hready hc
    hclean (fun n hn => by cases hn) hnone hhead hregular hfair hinner
  simp only [setLine, modify_ok] at hline
  subst hline
  have hc₂ : Charting ν₂ [] shut { st₂ with line := line } :=
    ⟨hcompletes.charted.alive, hcompletes.charted.noted, hcompletes.charted.shut⟩
  refine noted_of_ending hc₂ ((outline_of_extends hmove.extends').trans hbegin) ?_ hret hend
  refine List.eq_nil_iff_forall_not_mem.mpr fun g hg => ?_
  obtain ⟨⟨p, hp, hleaves⟩, -⟩ := hcompletes.waiting g hg
  exact hnever p hp _ hleaves

theorem noted_of_functionBody (env : Surroundings)
    (h : functionBody proto params (statements true body) endLine
      ⟨FunctionScope.create fresh :: outer, line, captured⟩ = .ok u st)
    (hfresh : Fresh fresh outer) (hnested : FunctionScope.Nested outer) (hlawful : Lawful body)
    (hregular : ∀ s ∈ Sites.stmts env body, s.Regular) : st.current.proto.Mindful := by
  simp only [functionBody, bind_ok, pure_ok] at h
  obtain ⟨_, st₁, hline, _, st₂, hbegin, r, st₃, hreserve, _, st₄, hbinders, _, st₅, hinner, _, st₆,
    hline', _, st₇, hret, block, st₈, hend, -, rfl⟩ := h
  simp only [setLine, modify_ok] at hline
  subst hline
  have hs₀ : Sound Prototype.WellFormed [] ⟨FunctionScope.create fresh :: outer, proto.line,
    captured⟩ := create_sound hfresh hnested
  obtain ⟨hready, hvisible⟩ := ready_of_parameters hbegin hreserve hbinders hfresh hnested
  obtain ⟨hstraight, -⟩ := straight_reserve hreserve (beginBlock_sound hbegin hs₀).1
  obtain ⟨-, hlocals₂, hblocks₂, hc₂, -⟩ := beginBlock_charted hbegin (create_charted hfresh)
  have hc₂' : Charted (fun _ => .full #[]) [] st₂.level st₂ := by
    unfold State.level
    rw [hlocals₂]
    exact hc₂
  obtain ⟨ν₃, hcrosses₃⟩ := hstraight.crosses hc₂'
  obtain ⟨-, -, ν₄, hdeclared⟩ := addBinders_charted hbinders hcrosses₃.charted
  refine noted_of_whole env ?_ ?_ hready hdeclared.charted hvisible hregular hlawful hinner hline' hret
    hend
  · rw [hdeclared.outline, hcrosses₃.outline, State.outline, hblocks₂]
    rfl
  · have hnone : st₂.waiting = [] := by
      unfold State.waiting State.gotos
      rw [hblocks₂]
      rfl
    refine List.eq_nil_iff_forall_not_mem.mpr fun g hg => ?_
    unfold State.waiting at hg
    rw [hdeclared.gotos] at hg
    rcases hcrosses₃.waiting g hg with hg | ⟨-, ⟨p, hp, -⟩, -⟩
    · rw [hnone] at hg
      cases hg
    · cases hp

theorem noted_of_main {name : String} {p : Prototype} (h : (do
      beginBlock false
      statements true body
      emitAbc .ret 0 1 0
      let _ ← endBlock
      return (← scope).proto : Gen Prototype)
      ⟨[FunctionScope.create (mainPrototype name)], 1, captured⟩ = .ok p st)
    (hlawful : Lawful body) (hregular : ∀ s ∈ sites body, s.Regular) : p.Mindful := by
  simp only [bind_ok, scope_ok, pure_ok, and_assoc, exists_and_left, exists_eq_left] at h
  obtain ⟨_, st₁, hbegin, _, st₂, hinner, _, st₃, hret, block, st₄, hend, rfl, rfl⟩ := h
  have hs₀ : Sound Prototype.WellFormed []
      ⟨[FunctionScope.create (mainPrototype name)], 1, captured⟩ := create_sound (fresh_main name) .nil
  obtain ⟨-, hlocals₁, hblocks₁, hc₁, -⟩ := beginBlock_charted hbegin (create_charted (fresh_main name))
  have hc₁' : Charted (fun _ => .full #[]) [] st₁.level st₁ := by
    unfold State.level
    rw [hlocals₁]
    exact hc₁
  have hline : setLine st₂.line st₂ = .ok () st₂ := by
    simp only [setLine, modify_ok]
  refine noted_of_whole {} ?_ ?_ (.of_beginBlock hbegin hs₀ rfl) hc₁' (visible_of_beginBlock hbegin) hregular hlawful hinner
    hline hret hend
  · rw [State.outline, hblocks₁]
    rfl
  · unfold State.waiting State.gotos
    rw [hblocks₁]
    rfl

end Generator

open Generator Jumps

/-- All functions of a compiled program are mindful of their variables. -/
theorem generate_mindful {text : String} {program : Block} {name : String} {p : Prototype}
    (hparse : parse text = .ok program) (h : generate program name = .ok p) :
    p.Everywhere Prototype.Mindful := by
  have hlawful := lawful_of_generate h
  have hregular := parse_regular hparse
  refine generate_everywhere hparse (fun captured st hrun => ?_) ?_ h
  · exact noted_of_main hrun (hlawful _ List.mem_cons_self) hregular
  · rintro captured q ⟨env, name, params, variadic, body, line, endLine, proto, fresh, outer, line', st,
      hsite, hfresh, hnested, hok, rfl⟩
    exact noted_of_functionBody _ hok hfresh hnested (hlawful body (mem_bodies_of_site hsite))
      fun s hs => hregular s (Sites.enclosed_stmts _ _ _ _ _ _ _ _ _ hsite hs)

end LuaMachine
