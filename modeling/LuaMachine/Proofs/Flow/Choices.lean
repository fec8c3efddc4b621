import LuaMachine.Proofs.Flow.Statements
/-! # Blocks and conditions with their variables

A block leaves nothing in scope. Of an `if` each condition that fails goes on with the next one, and
each block that was taken jumps to the end.

* `Generator.charts_block`: a block on its own.
* `Generator.ChartsClauses`: conditions with their blocks.
* `Generator.charts_cond`: an `if`.
-/
set_option autoImplicit false

namespace LuaMachine
namespace Generator

open Prototype Jumps

variable {ps : List Nat} {places places' : List Place} {st st' st₁ : State}
  {ν ν' : Nat → Note} {es : List Nat} {line : Nat} {u : Unit} {b : ScopeBlock}
  {condition : Expr} {body : Block} {more : Bool} {r : Bool × List Nat}
  {located located' : Surroundings → List Site} {clauses : Gen (Bool × List Nat)}

theorem Fair.left (h : Fair (places ++ places')) : Fair places :=
  fun p hp => h p (List.mem_append_left _ hp)

theorem Fair.right (h : Fair (places ++ places')) : Fair places' :=
  fun p hp => h p (List.mem_append_right _ hp)

/-! ## Blocks -/

/-- A block that is no loop is not left by a `break` of its own. -/
theorem WholeBlock.whole (h : WholeBlock false b places ν es st st' ν') :
    Crosses places ν es st st' ν' := by
  have hcrosses := h.crosses
  rw [h.plain rfl] at hcrosses
  exact hcrosses

/-- A block inside of a statement. -/
theorem innerBlock_crosses {env : Surroundings} (hbody : ChartsBlock .plain body)
    (h : (do let _ ← inBlock false (statements true body) : Gen Unit) st = .ok u st')
    (hready : Ready st) (hc : Charted ν es st.level st) (hclean : Clean ν st)
    (hes : ∀ n ∈ es, n < st.size) (hregular : ∀ s ∈ Sites.stmts env body, s.Regular) (hfair : Fair (ofBlock .plain [] body)) :
    ∃ ν', Crosses (ofBlock .plain [] body) ν es st st' ν' := by
  simp only [bind_ok, pure_ok] at h
  obtain ⟨b, _, hblock, -, rfl⟩ := h
  obtain ⟨ν', h'⟩ := inBlock_crosses hbody (by simp) hblock hready hc hclean hes hregular hfair
  exact ⟨ν', h'.whole⟩

theorem charts_block (line : Nat) (hbody : ChartsBlock .plain body) :
    Charts (.block body line) := by
  intro env st st' u ν es hready hc hclean hes hregular hfair h
  obtain ⟨ps, hs⟩ := hready.sound
  rw [statement, bind_ok] at h
  obtain ⟨_, st₁, hline, h⟩ := h
  have h₁ := setLine_crosses hline hc
  rw [ofStmt] at hfair ⊢
  rw [Sites.stmt] at hregular
  obtain ⟨ν', h₂⟩ := innerBlock_crosses hbody h (hready.step (setLine_step hline hs)) h₁.charted
    (h₁.clean hc.toCharting hclean) (fun n hn => Nat.lt_of_lt_of_le (hes n hn) h₁.size) hregular hfair
  exact ⟨ν', (h₁.after h₂).toPasses⟩

/-! ## Conditions -/

/-- Conditions with their blocks keep the words charted. The jumps to the end are to be finished. -/
def ChartsClauses (places : List Place) (located : Surroundings → List Site)
    (clauses : Gen (Bool × List Nat)) : Prop :=
  ∀ (env : Surroundings) (st st' : State) (r : Bool × List Nat) (ν : Nat → Note) (es : List Nat),
    Ready st → Charted ν es st.level st → Clean ν st → (∀ n ∈ es, n < st.size) →
    (∀ p ∈ located env, p.Regular) → Fair places → clauses st = .ok r st' →
    ∃ ν', Crosses places ν (r.2 ++ es) st st' ν' ∧ ∀ n ∈ r.2, Pending ν' st' n

theorem charts_clause (hbody : ChartsBlock .plain body) :
    ChartsClauses (ofBlock .plain [] body) (fun env => Sites.branch env (.mk condition body))
      (compileClause condition body more) := by
  intro env st st' r ν es hready hc hclean hes hregular hfair h
  obtain ⟨ps, hs⟩ := hready.sound
  simp only [Sites.branch] at hregular
  have hinner : ∀ s ∈ Sites.stmts env body, s.Regular := fun s hs =>
    hregular s (List.mem_append_right _ hs)
  unfold compileClause clause at h
  cases hfold : condition.fold with
  | some k =>
    simp only [hfold] at h
    split at h
    next =>
      simp only [pure_ok] at h
      obtain ⟨rfl, rfl⟩ := h
      exact ⟨ν, (Crosses.refl hc).mono (List.nil_subset _), by simp⟩
    next =>
      rw [bind_ok] at h
      obtain ⟨_, st₁, hblock, h⟩ := h
      simp only [pure_ok] at h
      obtain ⟨rfl, rfl⟩ := h
      obtain ⟨ν', h'⟩ := innerBlock_crosses hbody hblock hready hc hclean hes hinner hfair
      exact ⟨ν', h', by simp⟩
  | none =>
    simp only [hfold] at h
    rw [bind_ok] at h
    obtain ⟨next, st₁, hnext, h⟩ := h
    rw [bind_ok] at h
    obtain ⟨_, st₂, hblock, h⟩ := h
    simp only [bind_ok, pure_ok] at h
    obtain ⟨ns, st₃, hover, _, st₄, hpatch, rfl, rfl⟩ := h
    obtain ⟨ν₁, h₁, -, hpending₁⟩ := jumpIfFalse_crosses hnext hs hc
    have hstep₁ := (jumpIfFalse_step hnext hs (exprSound closed_wellFormed condition).evaluation).1
    obtain ⟨ν₂, h₂⟩ := innerBlock_crosses hbody hblock (hready.step hstep₁) h₁.charted
      (h₁.clean hc.toCharting hclean) (fun n hn => by
        rcases List.mem_cons.mp hn with rfl | hn
        · exact hpending₁.lt
        · exact Nat.lt_of_lt_of_le (hes n hn) h₁.size) hinner hfair
    have hpending₂ := hpending₁.crosses h₂
    obtain ⟨ν₃, h₃, hns⟩ : ∃ ν₃, Crosses [] ν₂ (ns ++ next :: es) st₂ st₃ ν₃ ∧
        ∀ n ∈ ns, Pending ν₃ st₃ n := by
      unfold jumpOver at hover
      split at hover
      next =>
        simp only [bind_ok, pure_ok] at hover
        obtain ⟨n, _, hjump, rfl, rfl⟩ := hover
        obtain ⟨-, -, ν₃, h₃, hpending⟩ := emitJump_crosses hjump h₂.charted
        exact ⟨ν₃, h₃, fun m hm => List.mem_singleton.mp hm ▸ hpending⟩
      next =>
        simp only [pure_ok] at hover
        obtain ⟨rfl, rfl⟩ := hover
        exact ⟨ν₂, .refl h₂.charted, by simp⟩
    have h₃' : Crosses [] ν₂ (next :: (ns ++ es)) st₂ st₃ ν₃ := h₃.congr fun m => by
      simp only [List.mem_append, List.mem_cons, or_left_comm]
    obtain ⟨h₄, -⟩ := patchHere_crosses hpatch h₃'.charted (hpending₂.crosses h₃)
    exact ⟨ν₃, (h₁.after (h₂.followed h₃')).followed h₄, fun n hn => (hns n hn).crosses h₄⟩

theorem charts_branches_nil (hasElse : Bool) :
    ChartsClauses (ofBranches []) (fun env => Sites.branches env []) (branches [] hasElse) := by
  intro env st st' r ν es hready hc _ _ _ _ h
  rw [branches, pure_ok] at h
  obtain ⟨rfl, rfl⟩ := h
  exact ⟨ν, (Crosses.refl hc).mono (List.nil_subset _), by simp⟩

theorem charts_branches_cons {rest : List Branch} {hasElse : Bool}
    (hbody : ChartsBlock .plain body)
    (hrest : ChartsClauses (ofBranches rest) (fun env => Sites.branches env rest)
      (branches rest hasElse)) :
    ChartsClauses (ofBranches (.mk condition body :: rest))
      (fun env => Sites.branches env (.mk condition body :: rest))
      (branches (.mk condition body :: rest) hasElse) := by
  intro env st st' r ν es hready hc hclean hes hregular hfair h
  obtain ⟨ps, hs⟩ := hready.sound
  rw [ofBranches] at hfair ⊢
  simp only [Sites.branches] at hregular
  rw [branches, bind_ok] at h
  obtain ⟨⟨decided, jumps⟩, st₁, hclause, h⟩ := h
  have happ₁ := (carries_clause (filling true body) _ _ _ hready hclause).1
  have hready₁ : Ready st₁ := hready.moves
    (guardSound _ (exprSound closed_wellFormed condition)
      (statementsSound closed_wellFormed true body) _ _ _ _ hs hready.top hclause).1 happ₁.fills
  obtain ⟨ν₁, h₁, hjumps⟩ := charts_clause hbody env _ _ _ _ _ hready hc hclean hes
    (fun p hp => hregular p (List.mem_append_left _ hp)) hfair.left hclause
  cases decided with
  | true =>
    simp only [if_true, pure_ok] at h
    obtain ⟨rfl, rfl⟩ := h
    exact ⟨ν₁, h₁.mono (List.subset_append_left _ _), hjumps⟩
  | false =>
    simp only [Bool.false_eq_true, if_false, bind_ok, pure_ok] at h
    obtain ⟨⟨decided, more⟩, st₂, hmore, rfl, rfl⟩ := h
    obtain ⟨ν₂, h₂, hjumps'⟩ := hrest env _ _ _ _ _ hready₁ h₁.charted
      (h₁.clean hc.toCharting hclean)
      (fun n hn => (List.mem_append.mp hn).elim (fun hn => (hjumps n hn).lt)
        fun hn => Nat.lt_of_lt_of_le (hes n hn) h₁.size)
      (fun p hp => hregular p (List.mem_append_right _ hp)) hfair.right hmore
    refine ⟨ν₂, (h₁.trans h₂).congr fun m => ?_, fun n hn => ?_⟩
    · simp only [List.mem_append, or_assoc, or_left_comm]
    · rcases List.mem_append.mp hn with hn | hn
      · exact (hjumps n hn).crosses h₂
      · exact hjumps' n hn

/-- The block for the case that no condition is true. -/
theorem compileElse_crosses {otherwise : Option Block} {decided : Bool} (env : Surroundings)
    (hotherwise : ∀ body, otherwise = some body → ChartsBlock .plain body)
    (h : compileElse otherwise decided st = .ok u st') (hready : Ready st)
    (hc : Charted ν es st.level st) (hclean : Clean ν st) (hes : ∀ n ∈ es, n < st.size)
    (hregular : ∀ body, otherwise = some body → ∀ s ∈ Sites.stmts env body, s.Regular)
    (hfair : ∀ body, otherwise = some body → Fair (ofBlock .plain [] body)) :
    ∃ ν', Crosses (otherwise.elim [] (ofBlock .plain [])) ν es st st' ν' := by
  unfold compileElse at h
  cases otherwise with
  | none =>
    simp only [Option.elim_none, pure_ok] at h
    obtain ⟨-, rfl⟩ := h
    exact ⟨ν, .refl hc⟩
  | some body =>
    rw [Option.elim_some] at h
    split at h
    next =>
      simp only [pure_ok] at h
      obtain ⟨-, rfl⟩ := h
      exact ⟨ν, (Crosses.refl hc).mono (List.nil_subset _)⟩
    next =>
      exact innerBlock_crosses (hotherwise body rfl) h hready hc hclean hes (hregular body rfl)
        (hfair body rfl)

theorem charts_cond {more : List Branch} {otherwise : Option Block} (line : Nat)
    (hbranches : ∀ hasElse, ChartsClauses (ofBranches (.mk condition body :: more))
      (fun env => Sites.branches env (.mk condition body :: more))
      (branches (.mk condition body :: more) hasElse))
    (hotherwise : ∀ body', otherwise = some body' → ChartsBlock .plain body') :
    Charts (.cond condition body more otherwise line) := by
  intro env st st' u ν es hready hc hclean hes hregular hfair h
  obtain ⟨ps, hs⟩ := hready.sound
  have hplaces : ofStmt (.cond condition body more otherwise line) =
      ofBranches (.mk condition body :: more) ++ otherwise.elim [] (ofBlock .plain []) := by
    rw [ofStmt.eq_def, ofBranches]
    cases otherwise <;> rfl
  have hlocated : Sites.stmt env (.cond condition body more otherwise line) =
      Sites.branches env (.mk condition body :: more) ++
        otherwise.elim [] (Sites.stmts env) := by
    rw [Sites.stmt.eq_def, Sites.branches, Sites.branch]
    cases otherwise <;> rfl
  rw [hplaces] at hfair ⊢
  rw [hlocated] at hregular
  rw [statement_cond] at h
  simp only [bind_ok] at h
  obtain ⟨_, st₁, hline, ⟨decided, jumps⟩, st₂, hclauses, _, st₃, helse, hpatch⟩ := h
  have hready₁ := hready.step (setLine_step hline hs)
  obtain ⟨ps₁, hs₁⟩ := hready₁.sound
  have h₁ := setLine_crosses hline hc
  have hready₂ : Ready st₂ := hready₁.moves
    (branchesSound closed_wellFormed _ _ _ _ _ _ hs₁ hready₁.top hclauses).1
    (carriesBranches _ _ _ _ hready₁ hclauses).1.fills
  obtain ⟨ν₂, h₂, hjumps⟩ := hbranches _ env _ _ _ _ _ hready₁ h₁.charted
    (h₁.clean hc.toCharting hclean) (fun n hn => Nat.lt_of_lt_of_le (hes n hn) h₁.size)
    (fun p hp => hregular p (List.mem_append_left _ hp)) hfair.left hclauses
  obtain ⟨ν₃, h₃⟩ := compileElse_crosses env hotherwise helse hready₂ h₂.charted
    (h₂.clean h₁.charted.toCharting (h₁.clean hc.toCharting hclean)) (fun n hn => (List.mem_append.mp hn).elim (fun hn => (hjumps n hn).lt) fun hn =>
      Nat.lt_of_lt_of_le (hes n hn) (Nat.le_trans h₁.size h₂.size))
    (fun body' heq s hs => hregular s (List.mem_append_right _ (by
      rw [heq]
      exact hs)))
    (fun body' heq p hp => hfair.right p (by
      rw [heq]
      exact hp))
  have h₄ := patchAllHere_crosses hpatch h₃.charted fun n hn => (hjumps n hn).crosses h₃
  exact ⟨ν₃, ((h₁.after (h₂.trans h₃)).followed h₄).toPasses⟩

end Generator
end LuaMachine
