import LuaMachine.Proofs.Flow.Leaving
import LuaMachine.Proofs.Jumps.Passing
/-! # Parts of statements with their variables

A statement is put together from parts that leave no variables in scope: expressions, jumps and
whole blocks. A jump that leaves a block without having found its label waits on in the block around
it, and where it is only upvalues of variables may be open that are still in scope there.

* `Generator.Crosses`: what such a part does, with its composition.
* `Generator.Pending`: a jump that waits for its target.
* `Generator.jumpIfFalse_crosses`, `jumpBack_crosses`, `patchAllHere_crosses`: jumps.
* `Generator.Completes`, `Generator.WholeBlock`: the statements of a block, and the whole block.
-/
set_option autoImplicit false

namespace LuaMachine
namespace Generator

open Prototype Jumps

/-- A part of a statement, behind which the same variables are in scope, and only jumps of the part
wait in the blocks besides those from before. -/
structure Crosses (places : List Place) (ν : Nat → Note) (es : List Nat) (st st' : State)
    (ν' : Nat → Note) : Prop extends Passes places ν es st st' ν' where
  locals : st'.current.locals = st.current.locals
  gains : List.Forall₂ (ScopeBlock.Gains st.size) st.current.blocks st'.current.blocks
  outline : st'.outline = st.outline

variable {ps : List Nat} {places places' : List Place} {st st' st'' st₁ : State}
  {ν ν' ν'' : Nat → Note} {es es' : List Nat} {n t k line shut : Nat} {u : Unit} {l : Local}
  {g : PendingJump} {b : ScopeBlock} {isLoop : Bool} {condition : Expr}

/-! ## Composition -/

/-- A jump that waits in the innermost block has been written. -/
theorem Charting.waiting_lt (hc : Charting ν es shut st) (hg : g ∈ st.waiting) :
    g.position < st.size := by
  have hlayered := hc.noted.layered
  unfold State.waiting State.gotos at hg
  cases hblocks : st.current.blocks with
  | nil =>
    rw [hblocks] at hg
    cases hg
  | cons b outer =>
    rw [hblocks] at hg hlayered
    exact lt_size_of_opcodeAt? (hlayered.1.gotos g hg).1

theorem Strong.onward (h : Strong ν st g) (hlt : g.position < st.size)
    (ho : st.current.Onward st.level ν st'.current ν') (hc : Charting ν' es shut st')
    (hlevel : st'.level ≤ st.level) : Strong ν' st' g := by
  intro l hl hregister
  rw [ho.notes _ hlt] at hl
  obtain ⟨r, hr⟩ := Array.mem_iff_getElem?.mp (h l hl (Nat.lt_of_lt_of_le hregister hlevel))
  have hin := ho.within st'.size ho.retains.size (Nat.le_refl _) r l
    (Array.getElem?_eq_some_iff.mp hr).1 hr
  have hlocals : (ν' st'.size).locals = st'.current.locals := hc.noted.locals
  rw [hlocals] at hin
  exact Array.mem_of_getElem? hin

namespace Crosses

theorem level (h : Crosses places ν es st st' ν') : st'.level = st.level :=
  congrArg Array.size h.locals

theorem size (h : Crosses places ν es st st' ν') : st.size ≤ st'.size := h.onward.retains.size

/-- The same labels can be found. -/
theorem visible (h : Crosses places ν es st st' ν') : st'.visible = st.visible :=
  ScopeBlock.gains_labels h.gains

/-- A part that leaves the blocks as they are. -/
theorem of_blocks (hc : Charted ν' es st'.level st') (hl : st'.current.locals = st.current.locals)
    (hb : st'.current.blocks = st.current.blocks)
    (ho : st.current.Onward st.level ν st'.current ν') : Crosses places ν es st st' ν' := by
  have hgotos : st'.gotos = st.gotos := congrArg (List.map ScopeBlock.gotos) hb
  refine ⟨⟨hc, ho, congrArg List.tail hgotos, fun g hg => .inl ?_⟩, hl,
    hb ▸ ScopeBlock.gains_refl _ _,
    congrArg (List.map fun b : ScopeBlock => (b.level, b.isLoop)) hb⟩
  unfold State.waiting at hg ⊢
  rwa [hgotos] at hg

theorem refl (hc : Charted ν es st.level st) : Crosses places ν es st st ν :=
  .of_blocks hc rfl rfl (.refl hc.noted _)

theorem trans (h : Crosses places ν es st st₁ ν') (h' : Crosses places' ν' es' st₁ st' ν'') :
    Crosses (places ++ places') ν es' st st' ν'' where
  charted := h'.charted
  onward := h.onward.trans h'.onward h.charted.noted (Nat.le_of_eq h.level.symm)
  outer := h'.outer.trans h.outer
  waiting g hg := by
    rcases h'.waiting g hg with hg | ⟨hstrong, ⟨p, hp, hleaves⟩, hvisible⟩
    · refine (h.waiting g hg).imp_right fun ⟨hstrong, ⟨p, hp, hleaves⟩, hvisible⟩ =>
        ⟨?_, ⟨p, List.mem_append_left _ hp, hleaves⟩, hvisible⟩
      exact hstrong.onward (h.charted.waiting_lt hg) h'.onward h'.charted.toCharting
        (Nat.le_of_eq h'.level)
    · exact .inr ⟨hstrong, ⟨p, List.mem_append_right _ hp, hleaves⟩, h.visible ▸ hvisible⟩
  locals := h'.locals.trans h.locals
  gains := ScopeBlock.gains_trans h.gains h'.gains h.size
  outline := h'.outline.trans h.outline

theorem mono (h : Crosses places ν es st st' ν') (hsub : places ⊆ places') :
    Crosses places' ν es st st' ν' :=
  { h with
    waiting := fun g hg => (h.waiting g hg).imp_right fun ⟨hstrong, ⟨p, hp, hleaves⟩, hvisible⟩ =>
      ⟨hstrong, ⟨p, hsub hp, hleaves⟩, hvisible⟩ }

/-- Behind a part that leaves the blocks as they are. -/
theorem followed (h : Crosses places ν es st st₁ ν') (h' : Crosses [] ν' es' st₁ st' ν'') :
    Crosses places ν es' st st' ν'' :=
  (h.trans h').mono (by simp)

/-- In front of such a part. -/
theorem after (h : Crosses [] ν es st st₁ ν') (h' : Crosses places ν' es' st₁ st' ν'') :
    Crosses places ν es' st st' ν'' :=
  h.trans h'

theorem congr (h : Crosses places ν es st st' ν') (hes : ∀ m, m ∈ es ↔ m ∈ es') :
    Crosses places ν es' st st' ν' :=
  { h with charted := h.charted.congr hes }

/-- No labels are added. -/
theorem clean {es' : List Nat} (h : Crosses places ν es st st' ν') (hc : Charting ν es' shut st)
    (hclean : Clean ν st) : Clean ν' st' :=
  hclean.same hc h.visible h.onward

/-- A word whose target is known by now. -/
theorem settle (h : Crosses places ν (n :: es) st st' ν')
    (hn : st'.current.proto.Settled ν' (st'.current.Free es) n) : Crosses places ν es st st' ν' :=
  { h with charted := h.charted.settle hn }

end Crosses

/-- The jump has open upvalues of variables in scope only, and those are all in use. -/
def Pending (ν : Nat → Note) (st : State) (n : Nat) : Prop :=
  st.current.proto.opcodeAt? n = some .jump ∧ (∀ l, (ν n).Live l → l ∈ st.current.locals) ∧
    ∀ l, (ν n).Done l → l ∉ st.current.locals

theorem Pending.lt (h : Pending ν st n) : n < st.size := lt_size_of_opcodeAt? h.1

theorem Pending.crosses (hn : Pending ν st n) (h : Crosses places ν es st st' ν') :
    Pending ν' st' n := by
  refine ⟨h.onward.retains.opcodeAt? hn.1, ?_⟩
  rw [h.onward.notes n hn.lt, h.locals]
  exact hn.2

/-! ## Expressions and jumps -/

theorem setLine_crosses (h : setLine line st = .ok u st') (hc : Charted ν es st.level st) :
    Crosses [] ν es st st' ν := by
  obtain ⟨hcurrent, hc'⟩ := setLine_charted h hc
  have hlevel : st'.level = st.level := congrArg (fun s => s.locals.size) hcurrent
  refine .of_blocks (hlevel ▸ hc') (congrArg _ hcurrent) (congrArg _ hcurrent) ?_
  rw [hcurrent]
  exact .refl hc.noted _

theorem Straight.crosses (h : Straight ps st st' t none) (hc : Charted ν es st.level st) :
    ∃ ν', Crosses [] ν es st st' ν' := by
  obtain ⟨ν', hc', honward⟩ := straight_charted h hc
  exact ⟨ν', .of_blocks hc' h.step.keeps.current.locals h.step.keeps.current.blocks honward⟩

/-- Giving registers back changes no words. -/
theorem release_crosses {r : Nat} (h : release r st = .ok u st') (hc : Charted ν es st.level st) :
    Crosses [] ν es st st' ν ∧ st'.current.blocks = st.current.blocks := by
  obtain ⟨-, -, rfl⟩ := release_ok h
  have hcurrent := State.current_mapCurrent (f := fun _ => { st.current with free := (r : Int) })
    hc.alive
  have honward := FunctionScope.Onward.refl hc.noted st.level
  have hnoted := hc.noted
  refine ⟨.of_blocks ⟨⟨State.scopes_mapCurrent_ne hc.alive, ?_, ?_⟩, ?_⟩ (by rw [hcurrent])
    (by rw [hcurrent]) ?_, by rw [hcurrent]⟩
  · rw [hcurrent]
    exact ⟨hnoted.code, hnoted.locals, hnoted.own, hnoted.shut, hnoted.registers, hnoted.layered,
      hnoted.recorded⟩
  · unfold State.size State.level
    rw [hcurrent]
    exact hc.shut
  · unfold State.size
    rw [hcurrent]
    exact hc.calm
  · rw [hcurrent]
    exact ⟨honward.toOnward, honward.within⟩

/-- A jump that is taken when the condition is false, which waits for its target. -/
theorem jumpIfFalse_crosses
    (h : jumpIfFalse condition (fun t => evaluate condition (.register t)) st = .ok n st')
    (hs : Sound Prototype.WellFormed ps st) (hc : Charted ν es st.level st) :
    ∃ ν', Crosses [] ν (n :: es) st st' ν' ∧ st.size ≤ n ∧ Pending ν' st' n := by
  simp only [jumpIfFalse, bind_ok, free_ok, pure_ok, and_assoc, exists_and_left,
    exists_eq_left] at h
  obtain ⟨r, st₁, hvalue, _, st₂, hline, _, st₃, htest, _, st₄, hjump, _, st₅, hrelease, rfl, rfl⟩ := h
  obtain ⟨t, h₁, -, -⟩ := straight_toAnyRegister hvalue hs
  obtain ⟨ν₁, hcross₁⟩ := h₁.crosses hc
  have hcross₂ := hcross₁.followed (setLine_crosses hline hcross₁.charted)
  obtain ⟨hle, hlocals, hblocks, hop, ν', hc₄, hlive, hbusy, honward⟩ :=
    emitTest_charted htest hjump hcross₂.charted
  have hcross₄ := hcross₂.followed (.of_blocks hc₄ hlocals hblocks honward)
  obtain ⟨hcross₅, -⟩ := release_crosses hrelease hc₄
  have hpending : Pending ν' st₄ n :=
    ⟨hop, fun l hl => hlocals.symm ▸ (hlive l hl).1, fun l hl => absurd hl (hbusy l)⟩
  exact ⟨ν', hcross₄.followed hcross₅, Nat.le_trans hcross₂.size hle, hpending.crosses hcross₅⟩

/-- A jump that waits for its target. -/
theorem emitJump_crosses (h : emitJump st = .ok n st') (hc : Charted ν es st.level st) :
    n = st.size ∧ st'.size = st.size + 1 ∧
      ∃ ν', Crosses [] ν (n :: es) st st' ν' ∧ Pending ν' st' n := by
  obtain ⟨rfl, hsize, hlocals, hblocks, hop, ν', hc', hhere, honward⟩ := emitJump_charted h hc
  refine ⟨rfl, hsize, ν', .of_blocks hc' hlocals hblocks honward, hop, ?_⟩
  rw [hhere, hlocals]
  exact ⟨fun l hl => (hc.live_iff.mp hl).1, fun l hl => absurd hl (hc.not_done l)⟩

theorem jumpBack_crosses (h : jumpBack t st = .ok u st') (hc : Charted ν es shut st)
    (ht : t ≤ st.size) (hcalm : st.current.proto.Calm t)
    (hadmits : ∀ l, (ν st.size).Live l → st.current.proto.Admits ν t l)
    (hdone : ∀ l, (ν st.size).Done l → l ∈ (ν t).locals → (ν t).Done l ∨ l.start = t) :
    ∃ ν', Crosses [] ν es st st' ν' := by
  obtain ⟨-, hlocals, hblocks, ν', hc', honward⟩ := jumpBack_charted h hc ht hcalm hadmits hdone
  exact ⟨ν', .of_blocks hc' hlocals hblocks honward⟩

/-- The variables of a jump are in scope behind the code that it jumps over. -/
theorem live_lt (hc : Charted ν es st.level st) (hl : l ∈ st.current.locals) :
    l.register < st.level :=
  hc.noted.register_lt hl

theorem live_iff_mem (hc : Charted ν es st.level st) :
    (ν st.size).Live l ↔ l ∈ st.current.locals ∧ l.captured = true := by
  rw [hc.live_iff]
  exact ⟨fun h => ⟨h.1, h.2.1⟩, fun h => ⟨h.1, h.2, live_lt hc h.1⟩⟩

theorem patchHere_crosses (h : patchJumpHere n st = .ok u st')
    (hc : Charted ν (n :: es) st.level st) (hn : Pending ν st n) :
    Crosses [] ν es st st' ν ∧ st'.size = st.size ∧ st'.current.proto.HasJump n st.size := by
  obtain ⟨hsize, hlocals, hblocks, hc', honward, hjumps⟩ :=
    patchHere_charted h hc hn.1 (fun l hl => ⟨hn.2.1 l hl, live_lt hc (hn.2.1 l hl)⟩) hn.2.2
  have hlevel : st'.level = st.level := congrArg Array.size hlocals
  exact ⟨.of_blocks (hlevel ▸ hc') hlocals hblocks honward, hsize, hjumps⟩

theorem patchAllHere_crosses {ns : List Nat} (h : ns.forM patchJumpHere st = .ok u st')
    (hc : Charted ν (ns ++ es) st.level st) (hns : ∀ n ∈ ns, Pending ν st n) :
    Crosses [] ν es st st' ν := by
  obtain ⟨-, hlocals, hblocks, hc', honward⟩ := patchAllHere_charted h hc fun n hn =>
    ⟨(hns n hn).1, fun l hl => ⟨(hns n hn).2.1 l hl, live_lt hc ((hns n hn).2.1 l hl)⟩, (hns n hn).2.2⟩
  have hlevel : st'.level = st.level := congrArg Array.size hlocals
  exact .of_blocks (hlevel ▸ hc') hlocals hblocks honward

/-! ## Whole blocks -/

/-- What is said behind the statements of a block that is at this level. -/
structure Completes (places : List Place) (k : Nat) (ν : Nat → Note) (es : List Nat)
    (shut : Nat) (st st' : State) (ν' : Nat → Note) : Prop where
  charted : Charted ν' es shut st'
  onward : st.current.Onward st.level ν st'.current ν'
  outer : st'.gotos.tail = st.gotos.tail
  shut : k ≤ shut
  waiting : ∀ g ∈ st'.waiting, (∃ p ∈ places, p.Leaves g.name) ∧ ∀ L ∈ st.visible, L.name ≠ g.name

/-- What is said behind a whole block: the jumps that leave a loop are to be finished. -/
structure WholeBlock (isLoop : Bool) (b : ScopeBlock) (places : List Place) (ν : Nat → Note)
    (es : List Nat) (st st' : State) (ν' : Nat → Note) : Prop where
  crosses : Crosses places ν (b.breaks ++ es) st st' ν'
  breaks : ∀ n ∈ b.breaks, Pending ν' st' n
  plain : isLoop = false → b.breaks = []

theorem gotos_eq_cons {b : ScopeBlock} {outer : List ScopeBlock}
    (h : st.current.blocks = b :: outer) :
    st.gotos = b.gotos :: outer.map ScopeBlock.gotos := by
  unfold State.gotos
  rw [h]
  rfl

theorem outline_of_extends (h : Extends st st') : st'.outline = st.outline := by
  have hblocks := h.current.blocks
  unfold State.outline
  generalize st.current.blocks = bs at hblocks
  generalize st'.current.blocks = bs' at hblocks
  induction hblocks with
  | nil => rfl
  | cons hb _ ih => rw [List.map_cons, List.map_cons, hb.1, hb.2, ih]

/-- A block that is completed is closed. -/
theorem Completes.closes {st₂ : State} (houtline : st₂.outline = (st.level, isLoop) :: st.outline)
    (hc : Charted ν' es shut st₂) (honward : st.current.Onward st.level ν st₂.current ν')
    (houter : st₂.gotos.tail = st.gotos) (hshut : st.level ≤ shut) (hlt : st₂.level < 256)
    (hwaiting : ∀ g ∈ st₂.waiting,
      (∃ p ∈ places, p.Leaves g.name) ∧ ∀ L ∈ st.visible, L.name ≠ g.name)
    (hclose : closeBlock st₂ = .ok b st')
    (hgains : List.Forall₂ (ScopeBlock.Gains st.size) st.current.blocks st'.current.blocks) :
    ∃ ν'', WholeBlock isLoop b places ν es st st' ν'' ∧ (∀ t < st₂.size, ν'' t = ν' t) ∧
      ∀ t, st₂.size ≤ t → t < st'.size → ∀ (r : Nat) (l : Local),
        st₂.current.locals[r]? = some l → (ν'' t).locals[r]? = some l := by
  obtain ⟨b', outer, hblocks, heq, houtline'⟩ := List.map_eq_cons_iff.mp houtline
  obtain ⟨hlevel, hloop⟩ := Prod.mk.inj heq
  obtain ⟨rfl, ν'', hfinished⟩ :=
    closeBlock_charted hclose hc hblocks (hlevel ▸ hshut) hlt
  have hgotos := hfinished.gotos
  have htail := gotos_eq_cons hblocks
  rw [htail, List.tail_cons] at houter
  rw [houter] at hgotos
  have hlocals : st'.current.locals = st.current.locals := by
    rw [hfinished.locals, hlevel]
    exact honward.keeps hc.noted
  refine ⟨ν'', ⟨⟨⟨hfinished.charted, ?_, ?_, fun g hg => ?_⟩, hlocals, hgains,
    hfinished.outline.trans houtline'⟩, fun n hn => (hfinished.breaks n hn).2, fun hplain => ?_⟩,
    hfinished.onward.notes, hfinished.within⟩
  · exact honward.trans hfinished.onward hc.noted (Nat.le_of_eq hlevel.symm)
  · rw [hgotos, List.tail_modifyHead]
  · unfold State.waiting at hg ⊢
    rw [hgotos] at hg
    cases hold : st.gotos with
    | nil =>
      rw [hold] at hg
      cases hg
    | cons gs rest =>
      rw [hold] at hg
      refine (List.mem_append.mp hg).imp_right fun hmem => ⟨hfinished.strong g hmem, ?_⟩
      refine hwaiting g ?_
      unfold State.waiting
      rw [htail]
      exact hmem
  · refine List.eq_nil_iff_forall_not_mem.mpr fun n hn => ?_
    have hloop' := (hfinished.breaks n hn).1
    rw [hloop, hplain] at hloop'
    cases hloop'

/-! ## What is proved of statements -/

/-- Every jump finds its label, or leaves, in keeping with the rules of the language. -/
def Fair (places : List Place) : Prop := ∀ p ∈ places, ∃ inLoop seen, p.Fine inLoop seen

/-- The statements of a block keep the words charted. -/
def ChartsBlock (kind : Jumps.Kind) (body : Block) : Prop :=
  ∀ (env : Surroundings) (st st' : State) (u : Unit) (ν : Nat → Note) (es : List Nat) (k : Nat),
    Ready st → Charted ν es st.level st → Clean ν st → (∀ n ∈ es, n < st.size) → st.waiting = [] →
    (∀ b ∈ st.current.blocks.head?, b.level = k) → (∀ s ∈ Sites.stmts env body, s.Regular) →
    Fair (ofBlock kind [] body) → statements (decide (kind ≠ .repeats)) body st = .ok u st' →
    ∃ ν' shut, Completes (ofBlock kind [] body) k ν es shut st st' ν' ∧
      (kind = .repeats → shut = st'.level)

/-- The statement keeps the words charted. -/
def Charts (s : Stmt) : Prop :=
  ∀ (env : Surroundings) (st st' : State) (u : Unit) (ν : Nat → Note) (es : List Nat),
    Ready st → Charted ν es st.level st → Clean ν st → (∀ n ∈ es, n < st.size) →
    (∀ p ∈ Sites.stmt env s, p.Regular) → Fair (ofStmt s) → statement s st = .ok u st' →
    ∃ ν', Passes (ofStmt s) ν es st st' ν'

/-- A block with the variables that it begins with. -/
theorem ChartsBlock.closes {kind : Jumps.Kind} {body : Block} {env : Surroundings} {st₂ st₃ : State}
    (hbody : ChartsBlock kind body) (hkind : kind ≠ .repeats)
    (hbegin : beginBlock isLoop st = .ok u st₁) (hne : st.scopes ≠ [])
    (hready : Ready st₂) (happends : Appends [] st₁ st₂) {es' : List Nat}
    (hbefore : Charting ν es' st.level st) (hclean : Clean ν st) (hc : Charted ν' es st₂.level st₂)
    (honward : st.current.Onward st.level ν st₂.current ν')
    (hgotos : st₂.gotos = st₁.gotos) (houtline : st₂.outline = st₁.outline)
    (hlevel : st.level ≤ st₂.level) (hes : ∀ n ∈ es, n < st₂.size)
    (hregular : ∀ s ∈ Sites.stmts env body, s.Regular) (hfair : Fair (ofBlock kind [] body))
    (hinner : statements true body st₂ = .ok u st₃) (hclose : closeBlock st₃ = .ok b st') :
    ∃ ν'', WholeBlock isLoop b (ofBlock kind [] body) ν es st st' ν'' ∧
      ∀ t, st₂.size ≤ t → t < st'.size → ∀ (r : Nat) (l : Local),
        st₂.current.locals[r]? = some l → (ν'' t).locals[r]? = some l := by
  obtain ⟨-, -, hblocks₁⟩ := beginBlock_blocks hbegin hne
  have hgotos₁ : st₁.gotos = [] :: st.gotos := gotos_eq_cons hblocks₁
  have houtline₂ : st₂.outline = (st.level, isLoop) :: st.outline := by
    rw [houtline, State.outline, hblocks₁]
    rfl
  have hends : decide (kind ≠ .repeats) = true := by simpa using hkind
  obtain ⟨ps₂, hs₂⟩ := hready.sound
  obtain ⟨m, hmove⟩ := statementsSound closed_wellFormed true body _ _ _ _ hs₂ hready.top hinner
  have hblock := encloses (.refl hne) hbegin happends
    (filling true body _ _ _ hready hinner) (.refl hmove.sound.exists_scope) hclose
  have hhead : ∀ b ∈ st₂.current.blocks.head?, b.level = st.level := by
    intro b hb
    obtain ⟨b', outer, hblocks, heq, -⟩ := List.map_eq_cons_iff.mp houtline₂
    rw [hblocks] at hb
    cases hb
    exact (Prod.mk.inj heq).1
  have hvisible : st₂.visible = st.visible := by
    rw [happends.visible, State.visible, hblocks₁]
    rfl
  obtain ⟨ν₃, shut, hcompletes, -⟩ := hbody env _ _ _ _ _ _ hready hc
    (hclean.same hbefore hvisible honward) hes
    (by unfold State.waiting; rw [hgotos, hgotos₁]; rfl) hhead hregular hfair (hends ▸ hinner)
  obtain ⟨ν'', hwhole, hnotes, hwithin⟩ := Completes.closes
    (by rw [outline_of_extends hmove.extends', houtline₂]) hcompletes.charted
    (honward.trans hcompletes.onward hc.noted hlevel)
    (by rw [hcompletes.outer, hgotos, hgotos₁]; rfl) hcompletes.shut hmove.sound.level_lt
    (fun g hg => by rw [← hblock.visible]; exact hcompletes.waiting g hg) hclose
    hblock.appends.blocks
  refine ⟨ν'', hwhole, fun t ht hlt r l hl => ?_⟩
  have hkept := fun t (ht : st₂.size ≤ t) (hle : t ≤ st₃.size) =>
    hcompletes.onward.within t ht hle r l (Array.getElem?_eq_some_iff.mp hl).1 hl
  rcases Nat.lt_or_ge t st₃.size with hlt' | hge
  · rw [hnotes t hlt']
    exact hkept t ht (Nat.le_of_lt hlt')
  · refine hwithin t hge hlt r l ?_
    rw [← hcompletes.charted.noted.locals]
    exact hkept st₃.size hcompletes.onward.retains.size (Nat.le_refl _)

theorem inBlock_crosses {kind : Jumps.Kind} {body : Block} {env : Surroundings}
    (hbody : ChartsBlock kind body) (hkind : kind ≠ .repeats)
    (h : inBlock isLoop (statements true body) st = .ok b st') (hready : Ready st)
    (hc : Charted ν es st.level st) (hclean : Clean ν st) (hes : ∀ n ∈ es, n < st.size)
    (hregular : ∀ s ∈ Sites.stmts env body, s.Regular) (hfair : Fair (ofBlock kind [] body)) :
    ∃ ν', WholeBlock isLoop b (ofBlock kind [] body) ν es st st' ν' := by
  simp only [inBlock, bind_ok] at h
  obtain ⟨_, st₁, hbegin, _, st₂, hinner, hclose⟩ := h
  obtain ⟨hsize₁, hlocals₁, -, hc₁, honward₁⟩ := beginBlock_charted hbegin hc
  have hlevel₁ : st₁.level = st.level := congrArg Array.size hlocals₁
  obtain ⟨ν', hwhole, -⟩ := hbody.closes hkind hbegin hready.alive (hready.begins hbegin)
    (.refl hc₁.alive) hc.toCharting hclean (hlevel₁ ▸ hc₁) honward₁ rfl rfl (Nat.le_of_eq hlevel₁.symm) (hsize₁ ▸ hes)
    hregular hfair hinner hclose
  exact ⟨ν', hwhole⟩

end Generator
end LuaMachine
