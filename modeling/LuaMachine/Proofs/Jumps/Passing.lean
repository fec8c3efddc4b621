import LuaMachine.Proofs.Generator.Generation
import LuaMachine.Proofs.Jumps.Spots
import LuaMachine.Proofs.Jumps.Waiting
/-! # What a statement does to jumps

A statement that is no label adds words and leaves those before it alone. So it lets every jump that
waits go on waiting. From a block inside of it jumps are handed to the block around it when the
block ends.

* `Generator.Ready`: a sound state between two statements.
* `Generator.Within`: a block inside of a statement, until the end of the statement.
* `Generator.Carries`, `Generator.Filling`: what is proved of statements and of blocks.
* `Generator.carries`, `Generator.filling`: the induction over trees.
-/
set_option autoImplicit false

namespace LuaMachine
namespace Generator

open Jumps

variable {ps : List Nat} {st st' st'' : State} {t l : Nat} {u : Unit}

/-! ## Between statements -/

/-- A sound state between two statements of a block. -/
structure Ready (st : State) : Prop where
  sound : ∃ ps, Sound Prototype.WellFormed ps st
  top : st.top = st.level
  blocks : st.current.blocks ≠ []

namespace Ready

theorem alive (h : Ready st) : st.scopes ≠ [] :=
  let ⟨_, hs⟩ := h.sound
  hs.exists_scope

theorem moves (h : Ready st) (hmove : Moves Prototype.WellFormed ps st st' l l)
    (hfill : Fills st st') : Ready st' :=
  ⟨⟨ps, hmove.sound⟩, hmove.top_eq.trans hmove.level_eq.symm, hfill.blocks_ne_nil h.blocks⟩

theorem step (h : Ready st) (hstep : Step Prototype.WellFormed ps st st' st.top) : Ready st' :=
  h.moves (hstep.moves.cast h.top rfl) (Appends.of_step hstep).fills

/-- At the begin of a block. -/
theorem of_beginBlock {isLoop : Bool} (h : beginBlock isLoop st = .ok u st')
    (hs : Sound Prototype.WellFormed ps st) (htop : st.top = st.level) : Ready st' := by
  obtain ⟨hs', htop', hlevel', -⟩ := beginBlock_sound h hs
  refine ⟨⟨ps, hs'⟩, by omega, ?_⟩
  rw [(beginBlock_blocks h hs.exists_scope).2.2]
  exact List.cons_ne_nil _ _

theorem begins {isLoop : Bool} (h : Ready st) (hbegin : beginBlock isLoop st = .ok u st') :
    Ready st' :=
  let ⟨_, hs⟩ := h.sound
  of_beginBlock hbegin hs h.top

end Ready

/-! ## What is proved of statements -/

/-- A block inside of some code: its statements begin in a state in which the same labels can be
found as before, and what becomes of its jumps is known until the end of the code. Some words of the
code are to be finished later; they are none of the block. -/
structure Within (ns : List Nat) (kind : Jumps.Kind) (body : Block) (st st₁ st' : State) :
    Prop where
  ready : Ready st₁
  visible : st₁.visible = st.visible
  size : st.size ≤ st₁.size
  leaves : ∃ st₂, statements (decide (kind ≠ .repeats)) body st₁ = .ok () st₂ ∧
    st₂.size ≤ st'.size ∧ (∀ n ∈ ns, n < st₁.size ∨ st₂.size ≤ n) ∧
    ∀ n, st₁.size ≤ n → n < st₂.size → Watches n st₂ st'

/-- The statement adds words, and the blocks that the compiler enters are inside of it. -/
def Carries (s : Stmt) : Prop :=
  ∀ (st st' : State) (u : Unit), Ready st → statement s st = .ok u st' →
    Appends [] st st' ∧ ∀ kind body st₁, Enters s st kind body st₁ →
      Within [] kind body st st₁ st'

/-- The statements fill their block. -/
def Filling (ends : Bool) (body : Block) : Prop :=
  ∀ (st st' : State) (u : Unit), Ready st → statements ends body st = .ok u st' → Fills st st'

/-- A whole block with what stands in front of it: its statements begin in the second state and end
in the third. -/
structure Encloses (b : ScopeBlock) (st st₁ st₂ st' : State) : Prop where
  appends : Appends [] st st'
  visible : st₁.visible = st.visible
  start : st.size ≤ st₁.size
  stop : st₂.size ≤ st'.size
  breaks : ∀ n ∈ b.breaks, st.size ≤ n
  leaves : ∀ ns st'', Appends ns st' st'' → ∀ n, st₁.size ≤ n → (n ∈ ns → n ∈ b.breaks) →
    Watches n st₂ st''

theorem encloses {isLoop : Bool} {b : ScopeBlock} {st₁ st₂ st₃ st₄ st₅ : State}
    (hbefore : Appends [] st st₁) (hbegin : beginBlock isLoop st₁ = .ok u st₂)
    (hvariables : Appends [] st₂ st₃) (hfill : Fills st₃ st₄) (hbehind : Appends [] st₄ st₅)
    (hclose : closeBlock st₅ = .ok b st') : Encloses b st st₃ st₄ st' := by
  obtain ⟨hsize₂, -, hblocks₂⟩ := beginBlock_blocks hbegin hbefore.alive
  have hne₂ : st₂.current.blocks ≠ [] := by
    rw [hblocks₂]
    exact List.cons_ne_nil _ _
  have hne₃ := hvariables.fills.blocks_ne_nil hne₂
  have hfill₅ := hvariables.fills.trans (hfill.trans hbehind.fills hne₃) hne₂
  obtain ⟨b', outer, hblocks₅⟩ := List.exists_cons_of_ne_nil (hfill₅.blocks_ne_nil hne₂)
  obtain ⟨rfl, hhands⟩ := closeBlock_hands hclose hbehind.alive hblocks₅
  obtain ⟨hblock, hbreaks⟩ := Hands.appends hbegin hbefore.alive hfill₅ hblocks₅ hhands
  have hle := hbefore.size
  refine ⟨hbefore.trans hblock, ?_, ?_, Nat.le_trans hbehind.size hhands.size,
    fun n hn => Nat.le_trans hle (hbreaks n hn), fun ns st'' hafter n _ hns => ?_⟩
  · rw [hvariables.visible, ← hbefore.visible]
    unfold State.visible
    rw [hblocks₂]
    rfl
  · have hle' := hvariables.size
    omega
  · exact (hbehind.watches List.not_mem_nil).trans (hhands.leaves hblocks₅ hafter hns)

namespace Encloses

variable {ns more : List Nat} {kind : Jumps.Kind} {body : Block} {b : ScopeBlock}
  {st₁ st₂ : State}

/-- What is finished behind a block are jumps that leave it and words that are none of it. -/
theorem within (h : Encloses b st st₁ st₂ st') (hready : Ready st₁)
    (hrun : statements (decide (kind ≠ .repeats)) body st₁ = .ok u st₂)
    (hafter : Appends ns st' st'')
    (hns : ∀ n ∈ ns, n ∈ b.breaks ∨ n < st₁.size ∨ st₂.size ≤ n)
    (hmore : ∀ n ∈ more, n < st₁.size ∨ st₂.size ≤ n) : Within more kind body st st₁ st'' where
  ready := hready
  visible := h.visible
  size := h.start
  leaves := by
    refine ⟨st₂, hrun, Nat.le_trans h.stop hafter.size, hmore, fun n hn hlt =>
      h.leaves ns st'' hafter n hn fun hmem => ?_⟩
    exact (hns n hmem).resolve_right fun h => by omega

end Encloses

/-! ## Simple statements -/

theorem carries_of_step {s : Stmt} (hnone : ∀ st kind body st₁, ¬ Enters s st kind body st₁)
    (h : ∀ (ps : List Nat) (st st' : State) (u : Unit), Sound Prototype.WellFormed ps st →
      statement s st = .ok u st' → ∃ t, Step Prototype.WellFormed ps st st' t) : Carries s := by
  intro st st' u hready hrun
  obtain ⟨ps, hs⟩ := hready.sound
  obtain ⟨t, hstep⟩ := h ps st st' u hs hrun
  exact ⟨.of_step hstep, fun _ _ _ henters => absurd henters (hnone _ _ _ _)⟩

theorem carries_locals (bs : List Binder) (values : List Expr) (line : Nat) :
    Carries (.locals bs values line) := by
  intro st st' u hready h
  obtain ⟨ps, hs⟩ := hready.sound
  rw [statement] at h
  simp only [bind_ok] at h
  obtain ⟨_, st₁, hline, count, st₂, hlist, h⟩ := h
  have hstep₁ := setLine_step hline hs
  obtain ⟨t, hstep₂, -⟩ := adjusted_step hlist hstep₁.sound (itemsSound closed_wellFormed values)
  have happ₂ := Appends.of_step (hstep₁.trans hstep₂)
  exact ⟨happ₂.trans (addBinders_appends h happ₂.alive), nofun⟩

theorem carries_localFunction (b : Binder) (f : Function) (line : Nat) :
    Carries (.localFunction b f line) := by
  intro st st' u hready h
  obtain ⟨ps, hs⟩ := hready.sound
  rw [statement] at h
  rw [bind_ok] at h
  obtain ⟨_, st₁, hline, h⟩ := h
  rw [bind_ok] at h
  obtain ⟨r, st₂, hreserve, h⟩ := h
  rw [bind_ok] at h
  obtain ⟨_, st₃, hbinder, h⟩ := h
  have hstep₁ := setLine_step hline hs
  obtain ⟨hstep₂', rfl⟩ := reserve_step hreserve hstep₁.sound
  have hstep₂ := hstep₁.trans hstep₂'
  have htop₂ := hstep₂.top_eq
  have hmove₃ := addBinder_moves hbinder hstep₂.sound
  have htop₃ := hmove₃.top_eq
  have hstep₄ := closureOf_step h hmove₃.sound (functionSound closed_wellFormed f) (by
    have htop₁ := hstep₁.top_eq
    omega)
  have happ₂ := Appends.of_step hstep₂
  exact ⟨(happ₂.trans (addBinder_appends hbinder happ₂.alive)).trans (.of_step hstep₄), nofun⟩

theorem carries_ret (values : List Expr) (line : Nat) : Carries (.ret values line) := by
  intro st st' u hready h
  obtain ⟨ps, hs⟩ := hready.sound
  refine ⟨?_, nofun⟩
  rw [statement] at h
  simp only [bind_ok] at h
  obtain ⟨_, st₁, hline, found, st₂, hfound, h⟩ := h
  have hstep₁ := setLine_step hline hs
  have hstep₂ := hstep₁.trans (returnedVariable_step hfound hstep₁.sound).1
  have happ₂ := Appends.of_step hstep₂
  rcases found with _ | r
  · cases hempty : values.isEmpty with
    | true =>
      simp only [hempty] at h
      exact happ₂.trans (emitAbc_appends h happ₂.alive)
    | false =>
      simp only [hempty, bind_ok, free_ok, and_assoc, exists_and_left, exists_eq_left] at h
      obtain ⟨count, st₃, hlist, _, st₄, hline', _, st₅, hreturn, h⟩ := h
      obtain ⟨t, hstep₃, -⟩ :=
        adjusted_step hlist hstep₂.sound (itemsSound closed_wellFormed values)
      have happ₄ := happ₂.trans (.of_step (hstep₃.trans (setLine_step hline' hstep₃.sound)))
      have happ₅ := happ₄.trans (emitAbc_appends hreturn happ₄.alive)
      exact happ₅.trans (release_appends h happ₅.alive)
  · exact happ₂.trans (emitAbc_appends h happ₂.alive)

theorem carries_exit (line : Nat) : Carries (.exit line) := by
  intro st st' u hready h
  rw [statement] at h
  exact ⟨compileBreak_appends h hready.alive, nofun⟩

theorem carries_goto (name : String) (line : Nat) : Carries (.goto name line) := by
  intro st st' u hready h
  obtain ⟨ps, hs⟩ := hready.sound
  rw [statement] at h
  exact ⟨(compileGoto_appends h hs hready.blocks).1, nofun⟩

/-! ## Blocks and conditions -/

theorem ok_unique {α : Type} {x : Gen α} {a a' : α} (h : x st = .ok a st')
    (h' : x st = .ok a' st'') : a' = a ∧ st'' = st' := by
  rw [h] at h'
  cases h'
  exact ⟨rfl, rfl⟩

theorem carries_block {body : Block} (line : Nat) (hbody : Filling true body) :
    Carries (.block body line) := by
  intro st st' u hready h
  obtain ⟨ps, hs⟩ := hready.sound
  rw [statement] at h
  simp only [inBlock, bind_ok, pure_ok] at h
  obtain ⟨_, st₁, hline, block, st₄, ⟨_, st₂, hbegin, _, st₃, hinner, hclose⟩, -, rfl⟩ := h
  have hstep₁ := setLine_step hline hs
  have hready₂ := (hready.step hstep₁).begins hbegin
  have hfill := hbody _ _ _ hready₂ hinner
  have hblock := encloses (.of_step hstep₁) hbegin (.refl hready₂.alive) hfill (.refl hfill.alive)
    hclose
  refine ⟨hblock.appends, fun kind body' st₅ henters => ?_⟩
  cases henters with
  | block run =>
    obtain ⟨-, rfl⟩ := ok_unique (bind_ok.mpr ⟨_, _, hline, hbegin⟩) run
    exact hblock.within hready₂ hinner (.refl hblock.appends.alive) (by simp) (by simp)

theorem jumpOver_appends {more : Bool} {ns : List Nat} (h : jumpOver more st = .ok ns st')
    (hne : st.scopes ≠ []) :
    Appends [] st st' ∧ ∀ n ∈ ns, st.size ≤ n ∧ n < st'.size := by
  unfold jumpOver at h
  split at h
  · simp only [bind_ok, pure_ok] at h
    obtain ⟨n, st₁, hjump, rfl, rfl⟩ := h
    obtain ⟨happ, rfl, hsize⟩ := emit_appends hjump hne
    refine ⟨happ, fun m hm => ?_⟩
    rw [List.mem_singleton.mp hm]
    omega
  · simp only [pure_ok] at h
    obtain ⟨rfl, rfl⟩ := h
    exact ⟨.refl hne, by simp⟩

/-- Clauses of a condition add words, some of which are jumps to the end of the statement. -/
def CarriesClauses (enters : State → Block → State → Prop) (clauses : Gen (Bool × List Nat)) :
    Prop :=
  ∀ (st st' : State) (r : Bool × List Nat), Ready st → clauses st = .ok r st' →
    Appends [] st st' ∧ (∀ n ∈ r.2, st.size ≤ n ∧ n < st'.size) ∧
      ∀ body st₁, enters st body st₁ → Within r.2 .plain body st st₁ st'

theorem carries_clause {condition : Expr} {body : Block} {more : Bool} (hbody : Filling true body) :
    CarriesClauses (fun st body' st₁ => body' = body ∧ Possible condition ∧
      enterGuarded condition false st = .ok () st₁) (compileClause condition body more) := by
  intro st st' r hready h
  obtain ⟨ps, hs⟩ := hready.sound
  unfold compileClause clause at h
  cases hfold : condition.fold with
  | some k =>
    simp only [hfold] at h
    split at h
    next hfalse =>
      simp only [pure_ok] at h
      obtain ⟨rfl, rfl⟩ := h
      refine ⟨.refl hready.alive, by simp, ?_⟩
      rintro _ st₁ ⟨rfl, hpossible, -⟩
      rw [hpossible k hfold] at hfalse
      cases hfalse
    next =>
      simp only [inBlock, bind_ok, pure_ok] at h
      obtain ⟨_, _, ⟨block, _, ⟨_, st₁, hbegin, _, st₂, hinner, hclose⟩, -, rfl⟩, rfl, rfl⟩ := h
      have hready₁ := hready.begins hbegin
      have hfill := hbody _ _ _ hready₁ hinner
      have hblock := encloses (.refl hready.alive) hbegin (.refl hready₁.alive) hfill
        (.refl hfill.alive) hclose
      refine ⟨hblock.appends, by simp, ?_⟩
      rintro _ st₃ ⟨rfl, -, run⟩
      simp only [enterGuarded, hfold] at run
      obtain ⟨-, rfl⟩ := ok_unique hbegin run
      exact hblock.within hready₁ hinner (.refl hblock.appends.alive) (by simp) (by simp)
  | none =>
    simp only [hfold, inBlock, bind_ok, pure_ok] at h
    obtain ⟨next, st₁, hnext, _, _, ⟨block, st₄, ⟨_, st₂, hbegin, _, st₃, hinner, hclose⟩, -, rfl⟩,
      ns, st₅, hover, _, st₆, hpatch, rfl, rfl⟩ := h
    obtain ⟨hstep₁, hnext', hop⟩ :=
      jumpIfFalse_step hnext hs (exprSound closed_wellFormed condition).evaluation
    have hready₂ := (hready.step hstep₁).begins hbegin
    have hfill := hbody _ _ _ hready₂ hinner
    have hblock := encloses (.of_step hstep₁) hbegin (.refl hready₂.alive) hfill
      (.refl hfill.alive) hclose
    obtain ⟨hover', hns⟩ := jumpOver_appends hover hblock.appends.alive
    obtain ⟨hpatch', hsize₆, -⟩ := patchWithin_appends (patchJumpHere_ok hpatch) hover'.alive
    have hlt : next < st₂.size := by
      rw [(beginBlock_blocks hbegin hstep₁.sound.exists_scope).1]
      obtain ⟨i, hi, -⟩ := Prototype.opcodeAt?_eq_some_iff.mp hop
      exact Prototype.lt_size_of_word hi
    have hafter := hover'.trans hpatch'
    have hstart := hblock.appends.size
    have hstop := hblock.stop
    refine ⟨(hblock.appends.trans hafter).inner fun n hn => ?_, fun n hn => ?_, ?_⟩
    · obtain rfl : n = next := by simpa using hn
      exact hnext'
    · have hn' := hns n hn
      omega
    · rintro _ st₇ ⟨rfl, -, run⟩
      simp only [enterGuarded, hfold] at run
      obtain ⟨-, rfl⟩ := ok_unique (bind_ok.mpr ⟨_, _, hnext, hbegin⟩) run
      refine hblock.within hready₂ hinner hafter (fun n hn => ?_) fun n hn => ?_
      · obtain rfl : n = next := by simpa using hn
        exact .inr (.inl hlt)
      · have hn' := hns n hn
        omega

namespace Within

variable {ns more : List Nat} {kind : Jumps.Kind} {body : Block} {st₀ st₁ : State}

/-- Code behind the block, which finishes some words that are none of the block. -/
theorem behind (h : Within ns kind body st st₁ st') (hafter : Appends more st' st'')
    (hmore : more ⊆ ns) : Within ns kind body st st₁ st'' where
  ready := h.ready
  visible := h.visible
  size := h.size
  leaves := by
    obtain ⟨st₂, hrun, hend, hns, hwatches⟩ := h.leaves
    refine ⟨st₂, hrun, Nat.le_trans hend hafter.size, hns, fun n hn hlt => ?_⟩
    refine (hwatches n hn hlt).trans (hafter.watches fun hmem => ?_)
    have hout := hns n (hmore hmem)
    omega

/-- Code in front of the block. -/
theorem ahead (h : Within ns kind body st st₁ st') (hbefore : Appends [] st₀ st) :
    Within ns kind body st₀ st₁ st' where
  ready := h.ready
  visible := h.visible.trans hbefore.visible
  size := Nat.le_trans hbefore.size h.size
  leaves := h.leaves

/-- Words in front of the code or behind it are none of the block. -/
theorem widen (h : Within ns kind body st st₁ st')
    (hmore : ∀ n ∈ more, n ∈ ns ∨ n < st₁.size ∨ st'.size ≤ n) :
    Within more kind body st st₁ st' where
  ready := h.ready
  visible := h.visible
  size := h.size
  leaves := by
    obtain ⟨st₂, hrun, hend, hns, hwatches⟩ := h.leaves
    refine ⟨st₂, hrun, hend, fun n hn => ?_, hwatches⟩
    rcases hmore n hn with hn | hn | hn
    · exact hns n hn
    · exact .inl hn
    · exact .inr (Nat.le_trans hend hn)

end Within

theorem carries_branches_nil (hasElse : Bool) :
    CarriesClauses (EntersClause hasElse []) (branches [] hasElse) := by
  intro st st' r hready h
  rw [branches, pure_ok] at h
  obtain ⟨rfl, rfl⟩ := h
  exact ⟨.refl hready.alive, by simp, nofun⟩

theorem carries_branches_cons {condition : Expr} {body : Block} {rest : List Branch}
    {hasElse : Bool} (hbody : Filling true body)
    (hrest : CarriesClauses (EntersClause hasElse rest) (branches rest hasElse)) :
    CarriesClauses (EntersClause hasElse (.mk condition body :: rest))
      (branches (.mk condition body :: rest) hasElse) := by
  intro st st' r hready h
  obtain ⟨ps, hs⟩ := hready.sound
  rw [branches, bind_ok] at h
  obtain ⟨⟨decided, jumps⟩, st₁, hclause, h⟩ := h
  obtain ⟨happ₁, hjumps, hwithin⟩ := carries_clause hbody _ _ _ hready hclause
  have hready₁ : Ready st₁ := hready.moves
    (guardSound _ (exprSound closed_wellFormed condition)
      (statementsSound closed_wellFormed true body) _ _ _ _ hs hready.top hclause).1 happ₁.fills
  cases decided with
  | true =>
    simp only [if_true, pure_ok] at h
    obtain ⟨rfl, rfl⟩ := h
    refine ⟨happ₁, hjumps, fun body' st₂ henters => ?_⟩
    cases henters with
    | here possible run => exact hwithin _ _ ⟨rfl, possible, run⟩
    | later run _ =>
      obtain ⟨heq, -⟩ := ok_unique hclause run
      cases heq
  | false =>
    simp only [Bool.false_eq_true, if_false, bind_ok, pure_ok] at h
    obtain ⟨⟨decided, more⟩, st₂, hmore, rfl, rfl⟩ := h
    obtain ⟨happ₂, hjumps', hwithin'⟩ := hrest _ _ _ hready₁ hmore
    have hle₁ := happ₁.size
    have hle₂ := happ₂.size
    refine ⟨happ₁.trans happ₂, fun n hn => ?_, fun body' st₃ henters => ?_⟩
    · rcases List.mem_append.mp hn with hn | hn
      · have hn' := hjumps n hn
        omega
      · have hn' := hjumps' n hn
        omega
    · cases henters with
      | here possible run =>
        have hhere := hwithin _ _ ⟨rfl, possible, run⟩
        refine (hhere.widen fun n hn => ?_).behind happ₂ (List.nil_subset _)
        rcases List.mem_append.mp hn with hn | hn
        · exact .inl hn
        · exact .inr (.inr (hjumps' n hn).1)
      | later run enters =>
        obtain ⟨heq, rfl⟩ := ok_unique hclause run
        cases heq
        have hlater := hwithin' _ _ enters
        refine (hlater.ahead happ₁).widen fun n hn => ?_
        rcases List.mem_append.mp hn with hn | hn
        · have hn' := (hjumps n hn).2
          have hstart := hlater.size
          omega
        · exact .inl hn

/-- The conditions of an `if` are compiled one after the other. -/
theorem statement_cond (condition : Expr) (body : Block) (more : List Branch)
    (otherwise : Option Block) (line : Nat) :
    statement (.cond condition body more otherwise line) = (do
      setLine line
      let r ← branches (.mk condition body :: more) otherwise.isSome
      compileElse otherwise r.1
      r.2.forM patchJumpHere) := by
  rw [statement, branches]
  simp only [bind_assoc]
  congr
  funext _
  congr
  funext r
  obtain ⟨decided, jumps⟩ := r
  cases decided <;> cases otherwise <;> simp [compileElse]

theorem carries_cond {condition : Expr} {body : Block} {more : List Branch}
    {otherwise : Option Block} (line : Nat)
    (hbranches : ∀ hasElse, CarriesClauses (EntersClause hasElse (.mk condition body :: more))
      (branches (.mk condition body :: more) hasElse))
    (hotherwise : ∀ body', otherwise = some body' → Filling true body') :
    Carries (.cond condition body more otherwise line) := by
  intro st st' u hready h
  obtain ⟨ps, hs⟩ := hready.sound
  rw [statement_cond] at h
  simp only [bind_ok] at h
  obtain ⟨_, st₁, hline, ⟨decided, jumps⟩, st₂, hclauses, _, st₃, helse, hpatch⟩ := h
  have hstep₁ := setLine_step hline hs
  have hready₁ := hready.step hstep₁
  have happ₁ := Appends.of_step hstep₁
  obtain ⟨happ₂, hjumps, hwithin⟩ := hbranches _ _ _ _ hready₁ hclauses
  obtain ⟨ps₁, hs₁⟩ := hready₁.sound
  have hready₂ : Ready st₂ := hready₁.moves
    (branchesSound closed_wellFormed _ _ _ _ _ _ hs₁ hready₁.top hclauses).1 happ₂.fills
  -- the other block adds words as well
  have helse' : Appends [] st₂ st₃ ∧ ∀ body' st₅, otherwise = some body' → decided = false →
      beginBlock false st₂ = .ok () st₅ → Within [] .plain body' st₂ st₅ st₃ := by
    cases otherwise with
    | none =>
      simp only [compileElse, Option.elim_none, pure_ok] at helse
      obtain ⟨-, rfl⟩ := helse
      exact ⟨.refl hready₂.alive, nofun⟩
    | some body' =>
      simp only [compileElse, Option.elim_some] at helse
      split at helse
      next hdecided =>
        simp only [pure_ok] at helse
        obtain ⟨-, rfl⟩ := helse
        refine ⟨.refl hready₂.alive, fun _ _ _ hopen => ?_⟩
        rw [hdecided] at hopen
        cases hopen
      next =>
        simp only [inBlock, bind_ok, pure_ok] at helse
        obtain ⟨block, st₄, ⟨_, st₅, hbegin, _, st₆, hinner, hclose⟩, -, rfl⟩ := helse
        have hready₅ := hready₂.begins hbegin
        have hfill := hotherwise body' rfl _ _ _ hready₅ hinner
        have hblock := encloses (.refl hready₂.alive) hbegin (.refl hready₅.alive) hfill
          (.refl hfill.alive) hclose
        refine ⟨hblock.appends, ?_⟩
        rintro _ st₇ ⟨⟩ - hbegin'
        obtain ⟨-, rfl⟩ := ok_unique hbegin hbegin'
        exact hblock.within hready₅ hinner (.refl hblock.appends.alive) (by simp) (by simp)
  obtain ⟨happ₃, hwithin'⟩ := helse'
  have hpatch' := patchAllHere_appends hpatch happ₃.alive
  have hle₁ := happ₁.size
  refine ⟨((happ₁.trans (happ₂.trans happ₃)).trans hpatch').inner fun n hn => ?_, ?_⟩
  · have hn' := (hjumps n (by simpa using hn)).1
    omega
  · intro kind body' st₄ henters
    cases henters with
    | clause run enters =>
      obtain ⟨-, rfl⟩ := ok_unique hline run
      have hclause := (hwithin _ _ enters).behind happ₃ (List.nil_subset _)
      exact ((hclause.behind hpatch' (List.Subset.refl _)).ahead happ₁).widen (by simp)
    | otherwise run begins =>
      rw [bind_ok] at run
      obtain ⟨_, st₅, hline', run⟩ := run
      obtain ⟨-, rfl⟩ := ok_unique hline hline'
      obtain ⟨heq, rfl⟩ := ok_unique hclauses run
      cases heq
      have hother := hwithin' _ _ rfl rfl begins
      have hfree : ∀ n ∈ jumps, n ∈ [] ∨ n < st₄.size ∨ st₃.size ≤ n := fun n hn => by
        have hn' := (hjumps n hn).2
        have hstart := hother.size
        omega
      exact (((hother.widen hfree).behind hpatch' (List.Subset.refl _)).ahead
        (happ₁.trans happ₂)).widen (by simp)

/-! ## Loops -/

theorem carries_while {condition : Expr} {body : Block} (line : Nat) (hbody : Filling true body) :
    Carries (.whileLoop condition body line) := by
  intro st st' u hready h
  obtain ⟨ps, hs⟩ := hready.sound
  rw [statement, bind_ok] at h
  obtain ⟨_, st₁, hline, h⟩ := h
  have hstep₁ := setLine_step hline hs
  have hready₁ := hready.step hstep₁
  have happ₁ := Appends.of_step hstep₁
  cases hfold : condition.fold with
  | some k =>
    simp only [hfold] at h
    split at h
    next hfalse =>
      simp only [pure_ok] at h
      obtain ⟨-, rfl⟩ := h
      refine ⟨happ₁, fun kind body' st₂ henters => ?_⟩
      cases henters with
      | whileLoop possible _ =>
        rw [possible k hfold] at hfalse
        cases hfalse
    next =>
      simp only [inBlock, bind_ok, here_ok, and_assoc, exists_and_left, exists_eq_left] at h
      obtain ⟨loop, st₄, ⟨_, st₂, hbegin, _, st₃, hinner, hclose⟩, _, st₅, hline', _, st₆, hback,
        hbreaks⟩ := h
      have hready₂ := hready₁.begins hbegin
      have hfill := hbody _ _ _ hready₂ hinner
      have hblock := encloses happ₁ hbegin (.refl hready₂.alive) hfill (.refl hfill.alive) hclose
      have happ₅ := setLine_appends hline' hblock.appends.alive
      have happ₆ := happ₅.trans (jumpBack_appends hback happ₅.alive)
      have hafter := happ₆.trans (patchAllHere_appends hbreaks happ₆.alive)
      refine ⟨(hblock.appends.trans hafter).inner fun n hn => hblock.breaks n (by simpa using hn),
        fun kind body' st₇ henters => ?_⟩
      cases henters with
      | whileLoop _ run =>
        rw [bind_ok] at run
        obtain ⟨_, st₈, hline', run⟩ := run
        obtain ⟨-, rfl⟩ := ok_unique hline hline'
        simp only [enterGuarded, hfold] at run
        obtain ⟨-, rfl⟩ := ok_unique hbegin run
        exact hblock.within hready₂ hinner hafter (fun n hn => .inl (by simpa using hn)) (by simp)
  | none =>
    simp only [hfold, inBlock, bind_ok, here_ok, and_assoc, exists_and_left, exists_eq_left] at h
    obtain ⟨leave, st₂, hleave, loop, st₅, ⟨_, st₃, hbegin, _, st₄, hinner, hclose⟩, _, st₆, hline',
      _, st₇, hback, _, st₈, hpatch, hbreaks⟩ := h
    obtain ⟨hstep₂, hleave', hop⟩ := jumpIfFalse_step hleave hstep₁.sound
      (exprSound closed_wellFormed condition).evaluation
    have happ₂ := happ₁.trans (.of_step hstep₂)
    have hready₃ := (hready₁.step hstep₂).begins hbegin
    have hfill := hbody _ _ _ hready₃ hinner
    have hblock := encloses happ₂ hbegin (.refl hready₃.alive) hfill (.refl hfill.alive) hclose
    have happ₆ := setLine_appends hline' hblock.appends.alive
    have happ₇ := happ₆.trans (jumpBack_appends hback happ₆.alive)
    have happ₈ := happ₇.trans (patchWithin_appends (patchJumpHere_ok hpatch) happ₇.alive).1
    have hafter := happ₈.trans (patchAllHere_appends hbreaks happ₈.alive)
    have hle₁ := happ₁.size
    have hlt : leave < st₃.size := by
      rw [(beginBlock_blocks hbegin happ₂.alive).1]
      obtain ⟨i, hi, -⟩ := Prototype.opcodeAt?_eq_some_iff.mp hop
      exact Prototype.lt_size_of_word hi
    have hns : ∀ n ∈ ([] ++ [] ++ [leave] : List Nat) ++ loop.breaks,
        n = leave ∨ n ∈ loop.breaks := by
      simp
    refine ⟨(hblock.appends.trans hafter).inner fun n hn => ?_, fun kind body' st₉ henters => ?_⟩
    · rcases hns n hn with rfl | hn
      · exact Nat.le_trans hle₁ hleave'
      · exact hblock.breaks n hn
    · cases henters with
      | whileLoop _ run =>
        rw [bind_ok] at run
        obtain ⟨_, st₁₀, hline', run⟩ := run
        obtain ⟨-, rfl⟩ := ok_unique hline hline'
        simp only [enterGuarded, hfold] at run
        obtain ⟨-, rfl⟩ := ok_unique (bind_ok.mpr ⟨_, _, hleave, hbegin⟩) run
        refine hblock.within hready₃ hinner hafter (fun n hn => ?_) (by simp)
        rcases hns n hn with rfl | hn
        · exact .inr (.inl hlt)
        · exact .inl hn

theorem repeatUntil_appends {start : Nat} {condition : Expr} {act : Evaluation}
    (h : repeatUntil start condition act st = .ok u st') (hs : Sound Prototype.WellFormed ps st)
    (hact : EvaluationSound Prototype.WellFormed act) : Appends [] st st' := by
  simp only [repeatUntil, bind_ok] at h
  obtain ⟨block, st₀, hblock, h⟩ := h
  obtain ⟨rfl, -⟩ := currentBlock_ok hblock
  cases hfold : condition.fold with
  | some k =>
    simp only [hfold] at h
    split at h
    · simp only [bind_ok] at h
      obtain ⟨_, st₁, hline, _, st₂, hclose, h⟩ := h
      have happ₁ := setLine_appends hline hs.exists_scope
      have happ₂ := happ₁.trans (closeIf_appends hclose happ₁.alive).1
      exact happ₂.trans (jumpBack_appends h happ₂.alive)
    · simp only [pure_ok] at h
      obtain ⟨-, rfl⟩ := h
      exact .refl hs.exists_scope
  | none =>
    simp only [hfold, bind_ok, free_ok, and_assoc, exists_and_left, exists_eq_left] at h
    obtain ⟨r, st₁, hvalue, _, st₂, hline, h⟩ := h
    obtain ⟨t, hstep₁, -, -⟩ := toAnyRegister_step hvalue hs hact
    have happ₂ := Appends.of_step (hstep₁.trans (setLine_step hline hstep₁.sound))
    split at h
    · simp only [bind_ok] at h
      obtain ⟨_, st₃, htest, leave, st₄, hleave, _, st₅, hrelease, _, st₆, hclose, _, st₇, hback,
        h⟩ := h
      have happ₃ := happ₂.trans (emitAbc_appends htest happ₂.alive)
      obtain ⟨happ₄', rfl, -⟩ := emit_appends hleave happ₃.alive
      have happ₄ := happ₃.trans happ₄'
      have happ₅ := happ₄.trans (release_appends hrelease happ₄.alive)
      have happ₆ := happ₅.trans (emitAbc_appends hclose happ₅.alive)
      have happ₇ := happ₆.trans (jumpBack_appends hback happ₆.alive)
      refine (happ₇.trans (patchWithin_appends (patchJumpHere_ok h) happ₇.alive).1).inner
        fun n hn => ?_
      obtain rfl : n = st₃.size := by simpa using hn
      exact happ₃.size
    · simp only [bind_ok] at h
      obtain ⟨_, st₃, htest, _, st₄, hback, h⟩ := h
      have happ₃ := happ₂.trans (emitAbc_appends htest happ₂.alive)
      have happ₄ := happ₃.trans (jumpBack_appends hback happ₃.alive)
      exact happ₄.trans (release_appends h happ₄.alive)

theorem carries_repeat {condition : Expr} {body : Block} (line : Nat)
    (hbody : Filling false body) : Carries (.repeatLoop body condition line) := by
  intro st st' u hready h
  obtain ⟨ps, hs⟩ := hready.sound
  rw [statement] at h
  simp only [bind_ok, here_ok, and_assoc, exists_and_left, exists_eq_left] at h
  obtain ⟨_, st₁, hline, _, st₂, hbegin, _, st₃, hinner, _, st₄, huntil, loop, st₅, hclose,
    hbreaks⟩ := h
  have hstep₁ := setLine_step hline hs
  have hready₂ := (hready.step hstep₁).begins hbegin
  have hfill := hbody _ _ _ hready₂ hinner
  obtain ⟨ps₂, hs₂⟩ := hready₂.sound
  obtain ⟨m, hmove₃⟩ := statementsSound closed_wellFormed false body _ _ _ _ hs₂ hready₂.top hinner
  have huntil' := repeatUntil_appends huntil hmove₃.sound
    (exprSound closed_wellFormed condition).evaluation
  have hblock := encloses (.of_step hstep₁) hbegin (.refl hready₂.alive) hfill huntil' hclose
  have hafter := patchAllHere_appends hbreaks hblock.appends.alive
  refine ⟨(hblock.appends.trans hafter).inner fun n hn => hblock.breaks n (by simpa using hn),
    fun kind body' st₆ henters => ?_⟩
  cases henters with
  | repeatLoop run =>
    obtain ⟨-, rfl⟩ := ok_unique (bind_ok.mpr ⟨_, _, hline, hbegin⟩) run
    exact hblock.within hready₂ hinner hafter (fun n hn => .inl hn) (by simp)

/-- In front of the statements of a counting loop or a loop over an iterator there are two blocks,
one for the state of the loop and one for its variables, and a word that jumps over the
statements. -/
structure LoopStart (n : Nat) (st st' : State) : Prop where
  enters : ∃ st₁ st₂ st₃ st₄, Appends [] st st₁ ∧ beginBlock false st₁ = .ok () st₂ ∧
    Appends [] st₂ st₃ ∧ st₂.size ≤ n ∧ beginBlock true st₃ = .ok () st₄ ∧ Appends [] st₄ st'
  ready : Ready st'
  lt : n < st'.size

theorem LoopStart.concludes {ns : List Nat} {n : Nat} {body : Block} {loop block : ScopeBlock}
    {st₁ st₂ st₃ st₄ : State} (h : LoopStart n st st₁) (hbody : Filling true body)
    (hinner : statements true body st₁ = .ok () st₂) (hclose : closeBlock st₂ = .ok loop st₃)
    (hafter : st₃.scopes ≠ [] → Appends ns st₃ st₄ ∧
      ∀ m ∈ ns, m ∈ loop.breaks ∨ m = n ∨ st₃.size ≤ m)
    (hclose' : closeBlock st₄ = .ok block st') :
    Appends [] st st' ∧ Within [] .loop body st st₁ st' := by
  obtain ⟨st₅, st₆, st₇, st₈, happ₅, hbegin, happ₇, hle, hbegin', happ₁⟩ := h.enters
  have hfill := hbody _ _ _ h.ready hinner
  have hloop := encloses happ₇ hbegin' happ₁ hfill (.refl hfill.alive) hclose
  obtain ⟨hafter, hns⟩ := hafter hloop.appends.alive
  have hstop := hloop.stop
  have hlt := h.lt
  -- seen from the outer block the loop adds words
  have happ₄ : Appends [] st₆ st₄ := (hloop.appends.trans hafter).inner fun m hm => by
    have hsize := hloop.appends.size
    rcases hns m (by simpa using hm) with hm | rfl | hm
    · exact hloop.breaks m hm
    · exact hle
    · omega
  have halive : st₆.scopes ≠ [] := beginBlock_ok hbegin ▸ State.scopes_mapCurrent_ne happ₅.alive
  have hblock := encloses happ₅ hbegin (.refl halive) happ₄.fills (.refl happ₄.alive) hclose'
  have hwithin : Within [] .loop body st₆ st₁ st₄ := hloop.within h.ready hinner hafter
    (fun m hm => (hns m hm).imp_right fun hm => by omega) (by simp)
  refine ⟨hblock.appends, hwithin.ready, hwithin.visible.trans hblock.visible,
    Nat.le_trans hblock.start hwithin.size, ?_⟩
  obtain ⟨st₉, hrun, hend, -, hwatches⟩ := hwithin.leaves
  refine ⟨st₉, hrun, Nat.le_trans hend hblock.stop, by simp, fun m hm hlt' => ?_⟩
  have hstart := hwithin.size
  exact (hwatches m hm hlt').trans
    (hblock.leaves [] st' (.refl hblock.appends.alive) m (by omega) (by simp))

theorem statement_numericFor (b : Binder) (start stop : Expr) (step : Option Expr) (body : Block)
    (line : Nat) :
    statement (.numericFor b start stop step body line) = (do
      let (base, prepare) ← enterNumeric b start stop step line
      let bodyStart ← here
      statements true body
      let loop ← closeBlock
      setLine line
      let back ← emitLoop .forLoop base
      patchLoop back bodyStart
      patchLoop prepare back
      patchBreaks loop
      let _ ← closeBlock) := by
  rw [statement.eq_def, enterNumeric.eq_def]
  simp only [bind_assoc, pure_bind] <;> rfl

theorem statement_genericFor (bs : List Binder) (iterators : List Expr) (body : Block)
    (line : Nat) :
    statement (.genericFor bs iterators body line) = (do
      let (base, enter) ← enterGeneric bs iterators line
      let bodyStart ← here
      statements true body
      let loop ← closeBlock
      setLine line
      patchJumpHere enter
      emitAbc .iterCall base 0 bs.length
      let back ← emitLoop .iterLoop base
      patchLoop back bodyStart
      patchBreaks loop
      let _ ← closeBlock) := by
  rw [statement, enterGeneric]
  simp only [bind_assoc, pure_bind]

theorem enterNumeric_start {b : Binder} {start stop : Expr} {step : Option Expr} {line : Nat}
    {base prepare : Nat} (h : enterNumeric b start stop step line st = .ok (base, prepare) st')
    (hready : Ready st) : LoopStart prepare st st' := by
  obtain ⟨ps, hs⟩ := hready.sound
  have htop := hready.top
  simp only [enterNumeric, bind_ok, pure_ok, Prod.mk.injEq] at h
  obtain ⟨_, st₁, hline, _, st₂, hbegin, _, st₃, hfirst, _, st₄, hsecond, _, st₅, hthird, _, st₆,
    hstate, _, st₇, hline₂, _, st₈, hprepare, _, st₉, hbegin', r, st₁₀, hreserve, _, st₁₁,
    hbinder, ⟨rfl, rfl⟩, rfl⟩ := h
  have hstep₁ := setLine_step hline hs
  have htop₁ := hstep₁.top_eq
  have hlevel₁ := hstep₁.level
  obtain ⟨hs₂, htop₂, hlevel₂, -⟩ := beginBlock_sound hbegin hstep₁.sound
  obtain ⟨hstep₃, -⟩ := toTemporary_step hfirst hs₂ (exprSound closed_wellFormed start).evaluation
  have hstep₄ := hstep₃.trans (toTemporary_step hsecond hstep₃.sound
    (exprSound closed_wellFormed stop).evaluation).1
  have hthird' : Step Prototype.WellFormed ps st₄ st₅ (st₄.top + 1) := by
    cases step with
    | some e =>
      exact (toTemporary_step hthird hstep₄.sound (exprSound closed_wellFormed e).evaluation).1
    | none =>
      exact (toTemporary_step hthird hstep₄.sound
        fun _ _ _ _ _ hs' hr h' => loadConstant_step h' hs' hr).1
  have hstep₅ := hstep₄.trans hthird'
  have hmove₆ := addLoopState_moves hstate hstep₅.sound
  have hmove₇ := hmove₆.followed (setLine_step hline₂ hmove₆.sound).moves
  obtain ⟨hmove₈, -⟩ := emitLoop_moves hprepare hmove₇.sound (by simp)
  obtain ⟨hs₉, htop₉, hlevel₉, -⟩ := beginBlock_sound hbegin' hmove₈.sound
  have hstep₁₀ := (reserve_step hreserve hs₉).1
  have hmove₁₁ := addBinder_moves hbinder hstep₁₀.sound
  have htop₃ := hstep₃.top_eq
  have htop₄ := hstep₄.top_eq
  have htop₅ := hstep₅.top_eq
  have hlevel₅ := hstep₅.level
  have htop₇ := hmove₇.top_eq
  have hlevel₇ := hmove₇.level_eq
  have htop₈ := hmove₈.top_eq
  have hlevel₈ := hmove₈.level_eq
  have htop₁₀ := hstep₁₀.top_eq
  have hlevel₁₀ := hstep₁₀.level
  have htop₁₁ := hmove₁₁.top_eq
  have hlevel₁₁ := hmove₁₁.level_eq
  -- the same steps as words that are added
  have happ₅ := Appends.of_step hstep₅
  have happ₆ := happ₅.trans (addLoopState_appends hstate happ₅.alive)
  have happ₇ := happ₆.trans (setLine_appends hline₂ happ₆.alive)
  obtain ⟨happ₈, rfl, hsize₈⟩ := emit_appends hprepare happ₇.alive
  have happ₁₀ := Appends.of_step hstep₁₀
  have happ₁₁ := happ₁₀.trans (addBinder_appends hbinder happ₁₀.alive)
  have hsize₉ := (beginBlock_blocks hbegin' happ₈.alive).1
  have hsize₁₁ := happ₁₁.size
  refine ⟨⟨st₁, st₂, st₈, st₉, .of_step hstep₁, hbegin, happ₇.trans happ₈, happ₇.size, hbegin',
    happ₁₁⟩, ⟨⟨_, hmove₁₁.sound⟩, by omega, happ₁₁.fills.blocks_ne_nil ?_⟩, by omega⟩
  rw [(beginBlock_blocks hbegin' happ₈.alive).2.2]
  exact List.cons_ne_nil _ _

theorem enterGeneric_start {bs : List Binder} {iterators : List Expr} {line base enter : Nat}
    (h : enterGeneric bs iterators line st = .ok (base, enter) st') (hready : Ready st) :
    LoopStart enter st st' := by
  obtain ⟨ps, hs⟩ := hready.sound
  have htop := hready.top
  simp only [enterGeneric, bind_ok, free_ok, pure_ok, Prod.mk.injEq, and_assoc, exists_and_left,
    exists_eq_left] at h
  obtain ⟨_, st₁, hline, _, st₂, hbegin, count, st₃, hlist, _, st₄, hstate, _, st₅, hline₂, _,
    st₆, henter, _, st₇, hbegin', r, st₈, hreserve, _, st₉, hensure, _, st₁₀, hbinders, rfl, rfl,
    rfl⟩ := h
  have hstep₁ := setLine_step hline hs
  have htop₁ := hstep₁.top_eq
  have hlevel₁ := hstep₁.level
  obtain ⟨hs₂, htop₂, hlevel₂, -⟩ := beginBlock_sound hbegin hstep₁.sound
  obtain ⟨t, hstep₃, -, -, hwanted⟩ :=
    adjusted_step hlist hs₂ (itemsSound closed_wellFormed iterators)
  have hwanted' := hwanted 3 rfl
  have hmove₄ := addLoopState_moves hstate hstep₃.sound
  have hmove₅ := hmove₄.followed (setLine_step hline₂ hmove₄.sound).moves
  have hmove₆ := hmove₅.followed (emitJump_moves henter hmove₅.sound).1
  obtain ⟨hs₇, htop₇, hlevel₇, -⟩ := beginBlock_sound hbegin' hmove₆.sound
  have hstep₈ := (reserve_step hreserve hs₇).1
  have hstep₉ := hstep₈.trans (ensureRegisters_step hensure hstep₈.sound).1
  have hmove₁₀ := addBinders_moves hbinders hstep₉.sound
  have htop₃ := hstep₃.top_eq
  have hlevel₃ := hstep₃.level
  have htop₆ := hmove₆.top_eq
  have hlevel₆ := hmove₆.level_eq
  have htop₈ := hstep₈.top_eq
  have htop₉ := hstep₉.top_eq
  have hlevel₉ := hstep₉.level
  have htop₁₀ := hmove₁₀.top_eq
  have hlevel₁₀ := hmove₁₀.level_eq
  -- the same steps as words that are added
  have happ₃ := Appends.of_step hstep₃
  have happ₄ := happ₃.trans (addLoopState_appends hstate happ₃.alive)
  have happ₅ := happ₄.trans (setLine_appends hline₂ happ₄.alive)
  obtain ⟨happ₆, rfl, hsize₆⟩ := emit_appends henter happ₅.alive
  have happ₉ := Appends.of_step hstep₉
  have happ₁₀ := happ₉.trans (addBinders_appends hbinders happ₉.alive)
  have hsize₇ := (beginBlock_blocks hbegin' happ₆.alive).1
  have hsize₁₀ := happ₁₀.size
  refine ⟨⟨st₁, st₂, st₆, st₇, .of_step hstep₁, hbegin, happ₅.trans happ₆, happ₅.size, hbegin',
    happ₁₀⟩, ⟨⟨_, hmove₁₀.sound⟩, by omega, happ₁₀.fills.blocks_ne_nil ?_⟩, by omega⟩
  rw [(beginBlock_blocks hbegin' happ₆.alive).2.2]
  exact List.cons_ne_nil _ _

theorem carries_numericFor {b : Binder} {start stop : Expr} {step : Option Expr} {body : Block}
    (line : Nat) (hbody : Filling true body) :
    Carries (.numericFor b start stop step body line) := by
  intro st st' u hready h
  rw [statement_numericFor] at h
  simp only [bind_ok, here_ok, pure_ok, and_assoc, exists_and_left, exists_eq_left] at h
  obtain ⟨⟨base, prepare⟩, st₁, henter, _, st₂, hinner, loop, st₃, hclose, _, st₄, hline, back, st₅,
    hback, _, st₆, hpatch, _, st₇, hpatch', _, st₈, hbreaks, block, st₉, hclose', -, rfl⟩ := h
  have hstart := enterNumeric_start henter hready
  obtain ⟨happ, hwithin⟩ := hstart.concludes hbody hinner hclose (fun halive => by
    have happ₄ := setLine_appends hline halive
    obtain ⟨happ₅', rfl, -⟩ := emit_appends hback happ₄.alive
    have happ₅ := happ₄.trans happ₅'
    have happ₆ := happ₅.trans (patchWithin_appends hpatch happ₅.alive).1
    have happ₇ := happ₆.trans (patchWithin_appends hpatch' happ₆.alive).1
    refine ⟨happ₇.trans (patchAllHere_appends hbreaks happ₇.alive), fun m hm => ?_⟩
    have hm' : m = st₄.size ∨ m = prepare ∨ m ∈ loop.breaks := by simpa using hm
    rcases hm' with rfl | rfl | hm
    · exact .inr (.inr happ₄.size)
    · exact .inr (.inl rfl)
    · exact .inl hm) hclose'
  refine ⟨happ, fun kind body' st₁₀ henters => ?_⟩
  cases henters with
  | numericFor run =>
    obtain ⟨-, rfl⟩ := ok_unique henter run
    exact hwithin

theorem carries_genericFor {bs : List Binder} {iterators : List Expr} {body : Block} (line : Nat)
    (hbody : Filling true body) : Carries (.genericFor bs iterators body line) := by
  intro st st' u hready h
  rw [statement_genericFor] at h
  simp only [bind_ok, here_ok, pure_ok, and_assoc, exists_and_left, exists_eq_left] at h
  obtain ⟨⟨base, enter⟩, st₁, henter, _, st₂, hinner, loop, st₃, hclose, _, st₄, hline, _, st₅,
    hpatch, _, st₆, hcall, back, st₇, hback, _, st₈, hpatch', _, st₉, hbreaks, block, st₁₀,
    hclose', -, rfl⟩ := h
  have hstart := enterGeneric_start henter hready
  obtain ⟨happ, hwithin⟩ := hstart.concludes hbody hinner hclose (fun halive => by
    have happ₄ := setLine_appends hline halive
    have happ₅ := happ₄.trans (patchWithin_appends (patchJumpHere_ok hpatch) happ₄.alive).1
    have happ₆ := happ₅.trans (emitAbc_appends hcall happ₅.alive)
    obtain ⟨happ₇', rfl, -⟩ := emit_appends hback happ₆.alive
    have happ₇ := happ₆.trans happ₇'
    have happ₈ := happ₇.trans (patchWithin_appends hpatch' happ₇.alive).1
    refine ⟨happ₈.trans (patchAllHere_appends hbreaks happ₈.alive), fun m hm => ?_⟩
    have hm' : m = enter ∨ m = st₆.size ∨ m ∈ loop.breaks := by simpa using hm
    rcases hm' with rfl | rfl | hm
    · exact .inr (.inl rfl)
    · exact .inr (.inr happ₆.size)
    · exact .inl hm) hclose'
  refine ⟨happ, fun kind body' st₁₁ henters => ?_⟩
  cases henters with
  | genericFor run =>
    obtain ⟨-, rfl⟩ := ok_unique henter run
    exact hwithin

/-! ## The induction -/

theorem fills_next {ends : Bool} {s : Stmt} {rest : List Stmt}
    (hs : s.labelName? = none → Carries s) (hready : Ready st)
    (h : compileNext ends s rest st = .ok u st') : Fills st st' ∧ Ready st' := by
  obtain ⟨ps, hsound⟩ := hready.sound
  cases hs' : s.labelName? with
  | none =>
    rw [compileNext_of_none hs'] at h
    have hfill := (hs hs' _ _ _ hready h).1.fills
    exact ⟨hfill, hready.moves (declares closed_wellFormed s _ _ _ _ hsound hready.top h) hfill⟩
  | some name' =>
    cases s with
    | label name line =>
      have hfill := (compileLabel_meets h hsound hready.blocks).fills
      exact ⟨hfill, hready.moves ((compileLabel_moves h hsound).cast hready.top rfl) hfill⟩
    | _ => cases hs'

/-- Only a label adds to the labels that can be found. -/
theorem visible_next {ends : Bool} {s : Stmt} {rest : List Stmt}
    (hs : s.labelName? = none → Carries s) (hready : Ready st)
    (h : compileNext ends s rest st = .ok u st') :
    (∀ l ∈ st.visible, l ∈ st'.visible) ∧
      (∀ name, s.labelName? = some name → ∃ l ∈ st'.visible, l.name = name) ∧
      ∀ l ∈ st'.visible, l ∈ st.visible ∨ s.labelName? = some l.name ∧ l.position = st.size := by
  obtain ⟨ps, hsound⟩ := hready.sound
  cases hs' : s.labelName? with
  | none =>
    rw [compileNext_of_none hs'] at h
    rw [(hs hs' _ _ _ hready h).1.visible]
    exact ⟨fun _ hl => hl, nofun, fun _ hl => .inl hl⟩
  | some name' =>
    cases s with
    | label name line =>
      obtain ⟨level, hvisible⟩ := (compileLabel_meets h hsound hready.blocks).visible
      obtain rfl : name = name' := Option.some.inj hs'
      refine ⟨fun l hl => (hvisible l).mpr (.inl hl), ?_, fun l hl => ?_⟩
      · rintro _ ⟨⟩
        exact ⟨_, (hvisible _).mpr (.inr rfl), rfl⟩
      · refine ((hvisible l).mp hl).imp_right ?_
        rintro rfl
        exact ⟨rfl, rfl⟩
    | _ => cases hs'

theorem filling_nil (ends : Bool) : Filling ends [] := by
  intro st st' u hready h
  rw [statements, pure_ok] at h
  obtain ⟨-, rfl⟩ := h
  exact (Appends.refl hready.alive).fills

theorem filling_cons {ends : Bool} {s : Stmt} {rest : List Stmt}
    (hs : s.labelName? = none → Carries s) (hrest : Filling ends rest) :
    Filling ends (s :: rest) := by
  intro st st' u hready h
  rw [statements_cons, bind_ok] at h
  obtain ⟨_, st₁, hnext, h⟩ := h
  obtain ⟨hfill, hready₁⟩ := fills_next hs hready hnext
  exact hfill.trans (hrest _ _ _ hready₁ h) hready.blocks

mutual

theorem carries : (s : Stmt) → s.labelName? = none → Carries s
  | .expr e _, _ => carries_of_step (fun _ _ _ _ => nofun) fun _ _ _ _ hs h =>
    ⟨_, expr_step h hs (exprSound closed_wellFormed e)⟩
  | .assign left right _, _ => carries_of_step (fun _ _ _ _ => nofun) fun _ _ _ _ hs h =>
    ⟨_, assign_step h hs (targetsSound closed_wellFormed left)
      (itemsSound closed_wellFormed right)⟩
  | .locals bs values line, _ => carries_locals bs values line
  | .localFunction b f line, _ => carries_localFunction b f line
  | .function left f _, _ => carries_of_step (fun _ _ _ _ => nofun) fun _ _ _ _ hs h =>
    ⟨_, function_step h hs (targetSound closed_wellFormed left)
      (functionSound closed_wellFormed f)⟩
  | .block body line, _ => carries_block line (filling true body)
  | .cond _ body more otherwise line, _ =>
    carries_cond line
      (fun _ => carries_branches_cons (filling true body) (carriesBranches more))
      (match otherwise with
        | some ss => fun _ heq => Option.some.inj heq ▸ filling true ss
        | none => (by simp))
  | .whileLoop _ body line, _ => carries_while line (filling true body)
  | .repeatLoop body _ line, _ => carries_repeat line (filling false body)
  | .numericFor _ _ _ _ body line, _ => carries_numericFor line (filling true body)
  | .genericFor _ _ body line, _ => carries_genericFor line (filling true body)
  | .ret values line, _ => carries_ret values line
  | .exit line, _ => carries_exit line
  | .goto name line, _ => carries_goto name line
  | .label _ _, h => nomatch h

theorem carriesBranches {hasElse : Bool} :
    (bs : List Branch) → CarriesClauses (EntersClause hasElse bs) (branches bs hasElse)
  | [] => carries_branches_nil hasElse
  | .mk _ body :: rest => carries_branches_cons (filling true body) (carriesBranches rest)

theorem filling (ends : Bool) : (ss : List Stmt) → Filling ends ss
  | [] => filling_nil ends
  | s :: rest => filling_cons (carries s) (filling ends rest)

end

end Generator
end LuaMachine
