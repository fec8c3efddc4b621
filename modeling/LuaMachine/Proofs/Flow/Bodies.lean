import LuaMachine.Proofs.Flow.Counting
/-! # Blocks of statements with their variables

The statements of a block keep its words charted one after the other. A jump that waits for a label
of the block declared no variable on the way if the label is seen by a variable, so it has open
upvalues of variables only that are in scope at the label.

* `Generator.Midway`: between two statements of a block.
* `Generator.Midway.label`, `Midway.statement`: one statement.
* `Generator.charts`, `chartsBlock`: the induction over trees.
-/
set_option autoImplicit false

namespace LuaMachine

/-! ## Places of a block -/

namespace Jumps

theorem mem_ofBlock_of_mem {kind : Kind} (before : List Stmt) {mid rest : List Stmt} {s : Stmt} {p : Place}
    (hp : p ∈ ofStmt s) :
    p.within ⟨kind, before ++ mid, rest⟩ ∈ ofBlock kind before (mid ++ s :: rest) := by
  induction mid generalizing before with
  | nil =>
    rw [List.append_nil, List.nil_append, ofBlock]
    exact List.mem_append_left _ (List.mem_map_of_mem hp)
  | cons s' mid ih =>
    rw [List.cons_append, ofBlock]
    refine List.mem_append_right _ ?_
    have hmem := ih (before ++ [s'])
    rwa [List.append_assoc, List.singleton_append] at hmem

/-- What is said of a place is said of it inside of a block. -/
theorem fair_of_block {kind : Kind} {before rest : List Stmt} {s : Stmt}
    (h : Generator.Fair (ofBlock kind [] (before ++ s :: rest))) : Generator.Fair (ofStmt s) := by
  intro p hp
  obtain ⟨inLoop, seen, hfine⟩ := h _ (mem_ofBlock_of_mem [] hp)
  exact ⟨_, _, ((p.fine_within _ _ _).mp hfine).1⟩

/-- No variable is declared between a jump and its label in the same block, unless the label ends
the block. -/
theorem declared_of_fair {kind : Kind} {before mid rest : List Stmt} {s : Stmt} {p : Place}
    {name : String} {line : Nat}
    (h : Generator.Fair (ofBlock kind [] (before ++ s :: (mid ++ .label name line :: rest))))
    (hp : p ∈ ofStmt s) (hleaves : p.Leaves name) (hbefore : name ∉ labels before)
    (hmid : name ∉ labels mid) (hend : kind = .repeats ∨ rest.all Stmt.isLabel = false) :
    mid.flatMap Stmt.declared = [] := by
  obtain ⟨inLoop, seen, hfine⟩ := h _ (mem_ofBlock_of_mem [] hp)
  have hlabel : name ∈ labels (mid ++ .label name line :: rest) := by
    simp [labels, Stmt.labelName?]
  obtain hback | hskips := ((p.fine_within _ _ _).mp hfine).2 name hleaves hlabel
  · exact absurd hback hbefore
  · by_contra hdeclared
    exact hskips ⟨mid, line, rest, rfl, hmid, hdeclared, hend⟩

end Jumps

namespace Generator

open Prototype Jumps

variable {ps : List Nat} {kind : Jumps.Kind} {before rest : List Stmt} {s : Stmt}
  {st₀ st st' : State} {ν₀ ν ν' : Nat → Note} {es : List Nat} {k shut : Nat} {u : Unit}
  {g : PendingJump} {name : String} {line : Nat}

/-! ## Between two statements -/

/-- The jump waits for a label that is not one of the block so far. -/
def Awaits (before : List Stmt) (ν : Nat → Note) (st : State) (g : PendingJump) : Prop :=
  ∃ front s mid p, before = front ++ s :: mid ∧ p ∈ ofStmt s ∧ p.Leaves g.name ∧
    g.name ∉ labels front ∧ g.name ∉ labels mid ∧
    (mid.flatMap Stmt.declared = [] → Strong ν st g)

/-- The rest of the block is beyond its variables. -/
def ending (kind : Jumps.Kind) (rest : List Stmt) : Bool :=
  decide (kind ≠ .repeats) && rest.all Stmt.isLabel

/-- Between two statements of a block that is at level `k` and began in the first state. -/
structure Midway (kind : Jumps.Kind) (before rest : List Stmt) (k : Nat) (ν₀ : Nat → Note)
    (es : List Nat) (st₀ st : State) (ν : Nat → Note) (shut : Nat) : Prop where
  ready : Ready st
  charted : Charted ν es shut st
  clean : ending kind rest = false → Clean ν st
  onward : st₀.current.Onward st₀.level ν₀ st.current ν
  outer : st.gotos.tail = st₀.gotos.tail
  outline : st.outline = st₀.outline
  level : st₀.level ≤ st.level
  visible : ∀ L ∈ st₀.visible, L ∈ st.visible
  labels : ∀ name ∈ labels before, ∃ L ∈ st.visible, L.name = name
  shut : if ending kind rest then k ≤ shut else shut = st.level
  waiting : ∀ g ∈ st.waiting, (∀ L ∈ st₀.visible, L.name ≠ g.name) ∧ Awaits before ν st g

namespace Midway

/-- A jump that waits goes on waiting behind a statement that is not its label. -/
theorem awaits {shut' : Nat} (h : Midway kind before (s :: rest) k ν₀ es st₀ st ν shut) (hg : g ∈ st.waiting) (hname : s.labelName? ≠ some g.name)
    (ho : st.current.Onward st.level ν st'.current ν') (hc : Charting ν' es shut' st')
    (hlevel : st'.level = st.level + s.declared.length) : Awaits (before ++ [s]) ν' st' g := by
  obtain ⟨front, s', mid, p, rfl, hp, hleaves, hfront, hmid, hstrong⟩ := (h.waiting g hg).2
  refine ⟨front, s', mid ++ [s], p, by simp, hp, hleaves, hfront, ?_, fun hdeclared => ?_⟩
  · rw [mem_labels_append]
    exact fun hmem => hmem.elim hmid hname
  · rw [List.flatMap_append, List.append_eq_nil_iff, List.flatMap_singleton] at hdeclared
    refine (hstrong hdeclared.1).onward (h.charted.waiting_lt hg) ho hc ?_
    rw [hlevel, hdeclared.2]
    exact Nat.le_refl _

/-- A label of the block. -/
theorem label {s : Stmt} {rest : List Stmt} (heq : s = .label name line)
    (h : Midway kind before (s :: rest) k ν₀ es st₀ st ν shut)
    (hk : ∀ b ∈ st₀.current.blocks.head?, b.level = k)
    (hfair : Fair (ofBlock kind [] (before ++ s :: rest)))
    (hrun : compileNext (decide (kind ≠ .repeats)) s rest st = .ok u st') :
    ∃ ν' shut', Midway kind (before ++ [s]) rest k ν₀ es st₀ st' ν' shut' := by
  subst heq
  obtain ⟨ps, hs⟩ := h.ready.sound
  obtain ⟨-, hready⟩ := fills_next (fun hnone => by cases hnone) h.ready hrun
  obtain ⟨hvisible, hlabels, -⟩ := visible_next (fun hnone => by cases hnone) h.ready hrun
  obtain ⟨b, outer, hb⟩ := List.exists_cons_of_ne_nil h.ready.blocks
  have hmove := compileLabel_moves hrun hs
  have hlevel : b.level = k := by
    have houtline := h.outline
    rw [State.outline, hb] at houtline
    obtain ⟨b₀, bs, hb₀, heq, -⟩ := List.map_eq_cons_iff.mp houtline.symm
    rw [← hk b₀ (by rw [hb₀]; rfl)]
    exact (Prod.mk.inj heq).1.symm
  have hwaiting : st.waiting = b.gotos := by
    unfold State.waiting State.gotos
    rw [hb]
    rfl
  obtain ⟨ν', shut', hc', hshut', honward, hlocals, hgotos, hnew⟩ := compileLabel_charted hrun h.charted hb
    hs.level_lt (hlevel ▸ h.shut) fun hend g hg hname => by
      obtain ⟨front, s, mid, p, rfl, hp, hleaves, hfront, hmid, hstrong⟩ :=
        (h.waiting g (hwaiting ▸ hg)).2
      refine hstrong (declared_of_fair (by simpa using hfair) hp (hname ▸ hleaves) (hname ▸ hfront)
        (hname ▸ hmid) ?_)
      exact Classical.or_iff_not_imp_left.mpr (by simpa using hend)
  have hlevel' : st'.level = st.level := congrArg Array.size hlocals
  have hclean : ending kind rest = false → Clean ν' st' := fun hend =>
    (h.clean hend).onward h.charted.toCharting (hnew hend) honward
  refine ⟨ν', shut', hready, hc', hclean, h.onward.trans honward h.charted.noted h.level, ?_,
    (outline_of_extends hmove.extends').trans h.outline, hlevel' ▸ h.level,
    fun L hL => hvisible L (h.visible L hL), fun name' hname => ?_, ?_, fun g hg => ?_⟩
  · rw [hgotos, List.tail_modifyHead]
    exact h.outer
  · rcases mem_labels_append.mp hname with hname | hname
    · obtain ⟨L, hL, rfl⟩ := h.labels name' hname
      exact ⟨L, hvisible L hL, rfl⟩
    · exact hlabels name' hname
  · rw [hlevel', ← hlevel]
    exact hshut'
  · have hmem : g ∈ st.waiting ∧ g.name ≠ name := by
      unfold State.waiting at hg ⊢
      rw [hgotos] at hg
      cases hold : st.gotos with
      | nil =>
        rw [hold] at hg
        cases hg
      | cons gs rest =>
        rw [hold] at hg
        obtain ⟨hmem, hname⟩ := List.mem_filter.mp hg
        exact ⟨hmem, by simpa using hname⟩
    exact ⟨(h.waiting g hmem.1).1, h.awaits hmem.1 (fun heq => hmem.2 (Option.some.inj heq).symm)
      honward hc'.toCharting (by rw [hlevel']; rfl)⟩

/-- A statement of the block that is no label. -/
theorem statement (env : Surroundings) {s : Stmt} {rest : List Stmt} (hs : s.labelName? = none)
    (hcharts : Charts s) (h : Midway kind before (s :: rest) k ν₀ es st₀ st ν shut)
    (hk : k ≤ st₀.level) (hes : ∀ n ∈ es, n < st.size) (hregular : ∀ p ∈ Sites.stmt env s, p.Regular)
    (hfair : Fair (ofStmt s)) (hrun : statement s st = .ok u st') :
    ∃ ν' shut', Midway kind (before ++ [s]) rest k ν₀ es st₀ st' ν' shut' := by
  obtain ⟨ps, hsound⟩ := h.ready.sound
  have hrun' : compileNext (decide (kind ≠ .repeats)) s rest st = .ok u st' := by
    rw [compileNext_of_none hs]
    exact hrun
  obtain ⟨-, hready⟩ := fills_next (fun _ => carries s hs) h.ready hrun'
  obtain ⟨hvisible, -, hnew⟩ := visible_next (fun _ => carries s hs) h.ready hrun'
  have hmove := declares closed_wellFormed s _ _ _ _ hsound h.ready.top hrun
  have hnot : s.isLabel = false := by
    cases s with
    | label => cases hs
    | _ => rfl
  have hfull : shut = st.level := by
    have hshut := h.shut
    simpa [ending, hnot] using hshut
  have hclean := h.clean (by simp [ending, hnot])
  obtain ⟨ν', hpasses⟩ := hcharts env st st' u ν es h.ready (hfull ▸ h.charted) hclean hes hregular
    hfair hrun
  have hsame : ∀ L ∈ st'.visible, L ∈ st.visible := fun L hL =>
    (hnew L hL).resolve_right fun hlabel => by cases hs.symm.trans hlabel.1
  have hlevel := hmove.level_eq
  refine ⟨ν', st'.level, hready, hpasses.charted, fun _ =>
      hclean.onward h.charted.toCharting (fun L hL => .inl (hsame L hL)) hpasses.onward,
    h.onward.trans hpasses.onward h.charted.noted h.level, hpasses.outer.trans h.outer,
    (outline_of_extends hmove.extends').trans h.outline, by have hle := h.level; omega,
    fun L hL => hvisible L (h.visible L hL), fun name hname => ?_, ?_, fun g hg => ?_⟩
  · rcases mem_labels_append.mp hname with hname | hname
    · obtain ⟨L, hL, rfl⟩ := h.labels name hname
      exact ⟨L, hvisible L hL, rfl⟩
    · cases hs.symm.trans hname
  · have hle := h.level
    split
    · omega
    · rfl
  · rcases hpasses.waiting g hg with hg | ⟨hstrong, ⟨p, hp, hleaves⟩, hlabels⟩
    · refine ⟨(h.waiting g hg).1, h.awaits hg ?_ hpasses.onward hpasses.charted.toCharting hlevel⟩
      rw [hs]
      exact nofun
    · refine ⟨fun L hL => hlabels L (h.visible L hL), before, s, [], p, rfl, hp, hleaves, fun hmem => ?_,
        List.not_mem_nil, fun _ => hstrong⟩
      obtain ⟨L, hL, heq⟩ := h.labels g.name hmem
      exact hlabels L hL heq

end Midway

/-! ## The induction -/

/-- The further statements of a block keep the words charted. -/
def ChartsRest (kind : Jumps.Kind) (before rest : List Stmt) : Prop :=
  ∀ (env : Surroundings) (st₀ st st' : State) (u : Unit) (ν₀ ν : Nat → Note) (es : List Nat)
    (k shut : Nat), Midway kind before rest k ν₀ es st₀ st ν shut →
    (∀ b ∈ st₀.current.blocks.head?, b.level = k) → k ≤ st₀.level → (∀ n ∈ es, n < st.size) →
    (∀ s ∈ Sites.stmts env rest, s.Regular) → Fair (ofBlock kind [] (before ++ rest)) →
    statements (decide (kind ≠ .repeats)) rest st = .ok u st' →
    ∃ ν' shut', Midway kind (before ++ rest) [] k ν₀ es st₀ st' ν' shut'

theorem chartsRest_nil (kind : Jumps.Kind) (before : List Stmt) : ChartsRest kind before [] := by
  intro env st₀ st st' u ν₀ ν es k shut h _ _ _ _ _ hrun
  rw [statements, pure_ok] at hrun
  obtain ⟨-, rfl⟩ := hrun
  rw [List.append_nil]
  exact ⟨ν, shut, h⟩

theorem chartsRest_cons (hs : s.labelName? = none → Charts s)
    (hrest : ChartsRest kind (before ++ [s]) rest) : ChartsRest kind before (s :: rest) := by
  intro env st₀ st st' u ν₀ ν es k shut h hk hle hes hregular hfair hrun
  rw [statements_cons, bind_ok] at hrun
  obtain ⟨_, st₁, hnext, hrun⟩ := hrun
  rw [Sites.stmts] at hregular
  obtain ⟨ν₁, shut₁, h₁⟩ : ∃ ν₁ shut₁, Midway kind (before ++ [s]) rest k ν₀ es st₀ st₁ ν₁ shut₁ := by
    cases hlabel : s.labelName? with
    | some name =>
      cases s with
      | label name line => exact h.label rfl hk hfair hnext
      | _ => cases hlabel
    | none =>
      rw [compileNext_of_none hlabel] at hnext
      exact h.statement env hlabel (hs hlabel) hle hes
        (fun p hp => hregular p (List.mem_append_left _ hp)) (fair_of_block hfair) hnext
  have hsize : st.size ≤ st₁.size := (fills_next (fun hs => carries s hs) h.ready hnext).1.size
  rw [List.append_cons] at hfair ⊢
  exact hrest (env.declare s.declared) _ _ _ _ _ _ _ _ _ h₁ hk hle
    (fun n hn => Nat.lt_of_lt_of_le (hes n hn) hsize)
    (fun p hp => hregular p (List.mem_append_right _ hp)) hfair hrun

theorem chartsBlock_of_rest {body : List Stmt} (h : ChartsRest kind [] body) :
    ChartsBlock kind body := by
  intro env st st' u ν es k hready hc hclean hes hwaiting hk hregular hfair hrun
  obtain ⟨b, outer, hb⟩ := List.exists_cons_of_ne_nil hready.blocks
  have hlayered := hc.noted.layered
  rw [hb] at hlayered
  have hle : k ≤ st.level := hk b (by rw [hb]; rfl) ▸ hlayered.1.level
  obtain ⟨ν', shut, h'⟩ := h env st st st' u ν ν es k st.level
    ⟨hready, hc, fun _ => hclean, .refl hc.noted _, rfl, rfl, Nat.le_refl _, fun _ hL => hL, fun _ hname => (by
      cases hname), by split <;> first | exact hle | rfl, fun g hg => (by rw [hwaiting] at hg; cases hg)⟩
    hk hle hes hregular hfair hrun
  have hshut := h'.shut
  refine ⟨ν', shut, ⟨h'.charted, h'.onward, h'.outer, ?_, fun g hg => ?_⟩, fun hkind => ?_⟩
  · split at hshut
    · exact hshut
    · rw [hshut]
      exact Nat.le_trans hle h'.level
  · obtain ⟨hvisible, front, s, mid, p, heq, hp, hleaves, hfront, hmid, -⟩ := h'.waiting g hg
    rw [List.nil_append] at heq
    subst heq
    refine ⟨⟨_, mem_ofBlock_of_mem [] hp, (p.leaves_within _ _).mpr ⟨hleaves, ?_⟩⟩, hvisible⟩
    simp [Enclosure.holds, hfront, hmid]
  · simpa [ending, hkind] using hshut

mutual

theorem charts : (s : Stmt) → s.labelName? = none → Charts s
  | .expr e line, _ => charts_expr e line
  | .assign left right line, _ => charts_assign left right line
  | .locals bs values line, _ => charts_locals bs values line
  | .localFunction b f line, _ => charts_localFunction b f line
  | .function left f line, _ => charts_function left f line
  | .block body line, _ => charts_block line (chartsBlock_of_rest (chartsRest .plain [] body))
  | .cond _ body more otherwise line, _ =>
    charts_cond line
      (fun _ => charts_branches_cons (chartsBlock_of_rest (chartsRest .plain [] body))
        (chartsBranches more))
      (match otherwise with
        | some ss => fun _ heq =>
          Option.some.inj heq ▸ chartsBlock_of_rest (chartsRest .plain [] ss)
        | none => (by simp))
  | .whileLoop _ body line, _ => charts_while line (chartsBlock_of_rest (chartsRest .loop [] body))
  | .repeatLoop body _ line, _ =>
    charts_repeat line (chartsBlock_of_rest (chartsRest .repeats [] body))
  | .numericFor _ _ _ _ body line, _ =>
    charts_numericFor line (chartsBlock_of_rest (chartsRest .loop [] body))
  | .genericFor _ _ body line, _ =>
    charts_genericFor line (chartsBlock_of_rest (chartsRest .loop [] body))
  | .ret values line, _ => charts_ret values line
  | .exit line, _ => charts_exit line
  | .goto name line, _ => charts_goto name line
  | .label _ _, h => nomatch h

theorem chartsBranches {hasElse : Bool} : (bs : List Branch) →
    ChartsClauses (ofBranches bs) (fun env => Sites.branches env bs) (branches bs hasElse)
  | [] => charts_branches_nil hasElse
  | .mk _ body :: rest =>
    charts_branches_cons (chartsBlock_of_rest (chartsRest .plain [] body)) (chartsBranches rest)

theorem chartsRest (kind : Jumps.Kind) (before : List Stmt) :
    (rest : List Stmt) → ChartsRest kind before rest
  | [] => chartsRest_nil kind before
  | s :: rest => chartsRest_cons (charts s) (chartsRest kind (before ++ [s]) rest)

end

/-- The statements of a block keep the words charted. -/
theorem chartsBlock (kind : Jumps.Kind) (body : Block) : ChartsBlock kind body :=
  chartsBlock_of_rest (chartsRest kind [] body)

end Generator
end LuaMachine
