import LuaMachine.Proofs.Flow.Loops
/-! # Statements with their variables

Most statements have no blocks: they are expressions and words that store values, jump or leave the
function, and some of them declare variables.

* `Generator.charts_of_straight`: statements that neither jump nor declare.
* `Generator.charts_locals`, `charts_localFunction`: variables.
* `Generator.charts_ret`, `charts_exit`, `charts_goto`: statements that leave.
-/
set_option autoImplicit false

namespace LuaMachine
namespace Generator

open Prototype Jumps Lowering

variable {ps : List Nat} {places : List Place} {st st' st₁ : State} {ν ν' ν'' : Nat → Note}
  {es : List Nat} {n t line shut : Nat} {u : Unit} {l : Local} {s : Stmt} {b : Binder}

theorem Crosses.passes (h : Crosses [] ν es st st' ν') : Passes places ν es st st' ν' :=
  (h.mono (List.nil_subset places)).toPasses

/-- Variables that are declared behind a part of a statement. -/
theorem Crosses.declares (h : Crosses [] ν es st st₁ ν') (hc : Charted ν'' es st'.level st')
    (ho : st₁.current.Onward st₁.level ν' st'.current ν'') (hgotos : st'.gotos = st₁.gotos) :
    Passes places ν es st st' ν'' where
  charted := hc
  onward := h.onward.trans ho h.charted.noted (Nat.le_of_eq h.level.symm)
  outer := (congrArg List.tail hgotos).trans h.outer
  waiting g hg := by
    refine .inl ((h.waiting g ?_).resolve_right (by simp))
    unfold State.waiting at hg ⊢
    rwa [← hgotos]

/-- A statement that neither jumps nor declares. -/
theorem charts_of_straight (h : ∀ env ps st st' u, Sound Prototype.WellFormed ps st →
    (∀ p ∈ Sites.stmt env s, p.Regular) → statement s st = .ok u st' →
    Straight ps st st' st.top none) : Charts s := by
  intro env st st' u ν es hready hc _ _ hregular _ hrun
  obtain ⟨ps, hs⟩ := hready.sound
  obtain ⟨ν', h'⟩ := (h env ps st st' u hs hregular hrun).crosses hc
  exact ⟨ν', h'.passes⟩

theorem namesVariable_of_regular (env : Surroundings) {e : Expr}
    (h : ∀ p ∈ Sites.expr env e, p.Regular) : NamesVariable e := by
  cases e with
  | name n line => exact h (.name env n) (by simp [Sites.expr])
  | _ => trivial

theorem charts_expr (e : Expr) (line : Nat) : Charts (.expr e line) :=
  charts_of_straight fun _ _ _ _ _ hs _ h => straight_expr h hs

theorem charts_assign (left right : List Expr) (line : Nat) : Charts (.assign left right line) := by
  refine charts_of_straight fun env ps st st' u hs hregular h => straight_assign h hs fun e he => ?_
  refine namesVariable_of_regular env fun p hp => hregular p ?_
  have hsub : ∀ {es : List Expr}, e ∈ es → p ∈ Sites.exprs env es := by
    intro es he
    induction es with
    | nil => cases he
    | cons e' es ih =>
      rw [Sites.exprs, List.mem_append]
      rcases List.mem_cons.mp he with rfl | he
      · exact .inl hp
      · exact .inr (ih he)
  rw [Sites.stmt]
  exact List.mem_append_left _ (List.mem_append_right _ (hsub he))

theorem charts_function (left : Expr) (f : Function) (line : Nat) :
    Charts (.function left f line) := by
  refine charts_of_straight fun env ps st st' u hs hregular h => straight_function h hs ?_
  refine namesVariable_of_regular env fun p hp => hregular p ?_
  rw [Sites.stmt]
  exact List.mem_cons_of_mem _ (List.mem_append_left _ hp)

/-! ## Variables -/

theorem charts_locals (bs : List Binder) (values : List Expr) (line : Nat) :
    Charts (.locals bs values line) := by
  intro env st st' u ν es hready hc _ _ _ _ h
  obtain ⟨ps, hs⟩ := hready.sound
  rw [statement] at h
  simp only [bind_ok] at h
  obtain ⟨_, st₁, hline, count, st₂, hlist, h⟩ := h
  have h₁ := straight_setLine hline hs
  obtain ⟨t, h₂, -, -, -⟩ := straight_adjusted hlist h₁.sound
  rw [rowList?_some] at h₂
  obtain ⟨ν₂, hcross⟩ := (h₁.trans h₂).crosses hc
  obtain ⟨-, -, ν', hd⟩ := addBinders_charted h hcross.charted
  exact ⟨ν', hcross.declares hd.charted hd.onward hd.gotos⟩

theorem charts_localFunction (b : Binder) (f : Function) (line : Nat) :
    Charts (.localFunction b f line) := by
  intro env st st' u ν es hready hc _ _ _ _ h
  obtain ⟨ps, hs⟩ := hready.sound
  have htop := hready.top
  rw [statement] at h
  rw [bind_ok] at h
  obtain ⟨_, st₁, hline, h⟩ := h
  rw [bind_ok] at h
  obtain ⟨r, st₂, hreserve, h⟩ := h
  rw [bind_ok] at h
  obtain ⟨_, st₃, hbinder, h⟩ := h
  have h₁ := straight_setLine hline hs
  obtain ⟨h₂', rfl⟩ := straight_reserve hreserve h₁.sound
  have h₂ := h₁.trans h₂'
  obtain ⟨ν₂, hcross⟩ := h₂.crosses hc
  have hc₂ := hcross.charted
  have hmove₃ := addBinder_moves hbinder h₂.sound
  simp only [addBinder, bind_ok, get_ok, and_assoc, exists_and_left, exists_eq_left] at hbinder
  obtain ⟨-, hcurrent⟩ := addLocal_declaring hbinder hc₂.alive
  have htop₁ := h₁.top_eq
  have htop₂ := h₂.top_eq
  have htop₃ := hmove₃.top_eq
  have hlevel₁ := h₁.level
  have hlevel₂ := h₂.level
  have hclosure := lowers_closure (functionSound closed_wellFormed f) hmove₃.sound (by omega) h
  have hkeeps := hclosure.step.keeps.current
  obtain ⟨⟨x, hword⟩, hsize⟩ := Emits.code hclosure _ st'.current.home
    ⟨fun _ _ _ => rfl, fun _ _ hk => hk, fun _ _ => rfl⟩
  have hsize₃ : st₃.size = st₂.size := by
    unfold State.size
    rw [hcurrent]
    rfl
  rw [hsize₃] at hword hsize
  obtain ⟨i, hi, hop, ha, -⟩ := hword
  have hplain : st'.current.PlainWord st₃.size st'.size st₂.size i .closure := by
    obtain ⟨op, hop', hplain⟩ := hkeeps.words _ i (Nat.le_of_eq hsize₃) hi
    cases hop.symm.trans hop'
    exact hplain
  obtain ⟨q, hq, hsources⟩ := hplain.closure rfl
  have hlocals : st'.current.locals = st₃.current.locals := hkeeps.locals
  rw [hlocals, hcurrent] at hsources
  have hadds := hkeeps.toAdds
  rw [hcurrent] at hadds
  obtain ⟨ν', hnoted, hfull, honward⟩ := hc₂.noted.makes hc₂.shut rfl rfl hadds hsize hi hop
    (ha.trans (by change st₁.top = st₂.level; omega)) ⟨q, hq, hsources⟩
  refine ⟨ν', hcross.declares ⟨⟨hclosure.step.sound.exists_scope, hnoted, hfull⟩, ?_⟩ honward ?_⟩
  · rw [hsize]
    exact calm_of_word hi hop rfl
  · unfold State.gotos
    rw [hkeeps.blocks, hcurrent]
    unfold FunctionScope.declaring
    cases st₂.current.blocks <;> rfl

/-! ## Leaving -/

theorem straight_returnedVariable {values : List Expr} {found : Option Nat}
    (h : returnedVariable values st = .ok found st') (hs : Sound Prototype.WellFormed ps st) :
    Straight ps st st' st.top none ∧ ∀ r, found = some r → r < st.level := by
  refine ⟨?_, (returnedVariable_step h hs).2⟩
  unfold returnedVariable at h
  split at h
  next n line =>
    simp only [bind_ok] at h
    obtain ⟨x, st₁, hresolve, h⟩ := h
    obtain rfl : st₁ = st' := by
      split at h
      all_goals
        simp only [pure_ok] at h
        exact h.2.symm
    exact straight_resolve hresolve hs
  next =>
    simp only [pure_ok] at h
    obtain ⟨-, rfl⟩ := h
    exact .silent (.refl hs) rfl

/-- If it is not known how many values there are, the last expression gives any number of them. -/
theorem rowList?_of_adjusted {values : List Expr} {items : Option Nat → Gen Unit} {wanted : Option Nat}
    (h : adjusted values wanted items st = .ok none st') (t : Nat) :
    rowList? values wanted t = some t := by
  simp only [adjusted, bind_ok, free_ok, and_assoc, exists_and_left, exists_eq_left] at h
  cases hlast : values.getLast? with
  | none => simp only [hlast, bind_ok, pure_ok, reduceCtorEq, false_and, and_false, exists_false] at h
  | some last =>
    simp only [hlast, bind_ok] at h
    obtain ⟨_, st₁, -, h⟩ := h
    split at h
    next =>
      cases hmultiple : last.isMultiple with
      | true => simp [rowList?, endsMultiple, hlast, hmultiple]
      | false => simp [hmultiple, pure_ok] at h
    next => simp only [bind_ok, pure_ok, reduceCtorEq, false_and, and_false, exists_false] at h

/-- Leaving the function: the words behind are as if it had not been left. -/
theorem emitReturn_crosses {a b : Nat} (h : emitAbc .ret a b 0 st = .ok u st')
    (hc : Charting ν es st.level st) (ha : a < 256) (hb : b < 256)
    (hopen : b = 0 → st.current.proto.Opened a 0 st.size) :
    st'.current.locals = st.current.locals ∧ st'.current.blocks = st.current.blocks ∧
      ∃ ν', Charted ν' es st'.level st' ∧ st.current.Onward st.level ν st'.current ν' := by
  obtain ⟨-, hlocals, hblocks, ν', hc', honward⟩ := emitReturn_charted st.level h hc ha hb
    hopen    (fun hlt => absurd hlt (Nat.lt_irrefl _)) (Nat.le_refl _)
  have hlevel : st'.level = st.level := congrArg Array.size hlocals
  exact ⟨hlocals, hblocks, ν', hlevel ▸ hc', honward⟩

theorem charts_ret (values : List Expr) (line : Nat) : Charts (.ret values line) := by
  intro env st st' u ν es hready hc _ _ _ _ h
  obtain ⟨ps, hs⟩ := hready.sound
  rw [statement] at h
  simp only [bind_ok] at h
  obtain ⟨_, st₁, hline, found, st₂, hfound, h⟩ := h
  have h₁ := straight_setLine hline hs
  obtain ⟨h₂', hlt⟩ := straight_returnedVariable hfound h₁.sound
  have h₂ := h₁.trans h₂'
  have hlevel₁ := h₁.level
  have hlimit := h₁.sound.level_lt
  obtain ⟨ν₂, hcross⟩ := h₂.crosses hc
  rcases found with _ | r
  · cases hempty : values.isEmpty with
    | true =>
      simp only [hempty] at h
      obtain ⟨hlocals, hblocks, ν', hc', honward⟩ :=
        emitReturn_crosses h hcross.charted.toCharting (by omega) (by omega) (by omega)
      exact ⟨ν', (hcross.followed (.of_blocks hc' hlocals hblocks honward)).passes⟩
    | false =>
      simp only [hempty, bind_ok, free_ok, and_assoc, exists_and_left, exists_eq_left] at h
      obtain ⟨count, st₃, hlist, _, st₄, hline', _, st₅, hreturn, hrelease⟩ := h
      obtain ⟨t, h₃, hle, hcount, -⟩ := straight_adjusted hlist h₂.sound
      obtain ⟨ν₃, hc₃, honward₃⟩ := straight_charting h₃ hcross.charted.toCharting
      have htop₃ := h₃.top_eq
      have htop := h₃.sound.top_le
      have hmax := h₃.sound.registers_le
      simp only [setLine, modify_ok] at hline'
      subst hline'
      obtain ⟨hlocals, hblocks, ν', hc', honward⟩ := emitReturn_crosses hreturn
        ⟨hc₃.alive, hc₃.noted, hc₃.shut⟩ (by omega)
        (by
          unfold countOperand
          split
          next k =>
            have hk := hcount k rfl
            omega
          next => omega)
        (fun hzero => by
          obtain rfl : count = none := by
            cases count with
            | none => rfl
            | some k => cases hzero
          have hending := h₃.here.ending
          rw [rowList?_of_adjusted hlist] at hending
          exact Opened.mono hending (Nat.le_refl _) (Nat.zero_le _))
      have hcross₅ : Crosses [] ν₂ es st₂ st₅ ν' :=
        .of_blocks hc' (hlocals.trans h₃.step.keeps.current.locals)
          (hblocks.trans h₃.step.keeps.current.blocks)
          (honward₃.trans honward hc₃.noted (Nat.le_of_eq h₃.level.symm))
      have hcross₆ := hcross.followed hcross₅
      exact ⟨ν', (hcross₆.followed (release_crosses hrelease hcross₆.charted).1).passes⟩
  · have hr := hlt r rfl
    obtain ⟨hlocals, hblocks, ν', hc', honward⟩ :=
      emitReturn_crosses h hcross.charted.toCharting (by omega) (by omega) (by omega)
    exact ⟨ν', (hcross.followed (.of_blocks hc' hlocals hblocks honward)).passes⟩

theorem charts_exit (line : Nat) : Charts (.exit line) := by
  intro env st st' u ν es hready hc _ _ _ _ h
  obtain ⟨ps, hs⟩ := hready.sound
  rw [statement] at h
  obtain ⟨ν', h'⟩ := compileBreak_charted h hc hs.level_lt
  exact ⟨ν', { h' with waiting := fun g hg => .inl ((h'.waiting g hg).resolve_right (by simp)) }⟩

theorem charts_goto (name : String) (line : Nat) : Charts (.goto name line) := by
  intro env st st' u ν es hready hc hclean _ _ _ h
  obtain ⟨ps, hs⟩ := hready.sound
  obtain ⟨b, outer, hb⟩ := List.exists_cons_of_ne_nil hready.blocks
  rw [statement] at h
  exact compileGoto_charted h hc hclean hs.level_lt hb

end Generator
end LuaMachine
