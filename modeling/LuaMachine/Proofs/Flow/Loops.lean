import LuaMachine.Proofs.Flow.Crossing
/-! # Loops with their variables

A loop goes back to a word that sees the variables around the loop, and the captured variables of
its body are closed on the way.

* `Generator.Crosses.back`: what may come to the end of a loop may come to its start.
* `Generator.charts_while`, `charts_repeat`: loops with a condition.
-/
set_option autoImplicit false

namespace LuaMachine
namespace Generator

open Prototype Jumps

variable {ps : List Nat} {places : List Place} {st st' st'' st₁ : State}
  {ν ν' ν'' : Nat → Note} {es : List Nat} {n t a line start shut : Nat} {u : Unit} {l : Local}
  {b : ScopeBlock} {outer : List ScopeBlock} {condition : Expr} {body : Block} {op : Opcode}
  {i : Instruction}

/-! ## Going back -/

/-- From the end of a part execution can go back to its start. -/
theorem Crosses.back (h : Crosses places ν es st st' ν') {es' : List Nat}
    (hc : Charted ν es' st.level st) : st'.current.proto.Calm st.size ∧
      ∀ l ∈ st.current.locals, l.captured = true → st'.current.proto.Admits ν' st.size l := by
  refine ⟨h.onward.retains.calm (Nat.le_refl _) hc.calm, fun l hl hcaptured =>
    h.onward.enters l (hc.live_iff.mpr ⟨hl, hcaptured, live_lt hc hl⟩)⟩

theorem Crosses.live (h : Crosses places ν es st st' ν') (hl : (ν' st'.size).Live l) :
    l ∈ st.current.locals ∧ l.captured = true := by
  obtain ⟨hmem, hcaptured, -⟩ := h.charted.live_iff.mp hl
  exact ⟨h.locals ▸ hmem, hcaptured⟩

/-- The captured variables of the block are closed on the way back. -/
theorem closeBack_crosses {u' : Unit} (hclose : closeIf b.hasCaptured b.level st = .ok u st₁)
    (hback : jumpBack start st₁ = .ok u' st') (hc : Charted ν es st.level st)
    (hb : st.current.blocks = b :: outer) (hlt : st.level < 256) (hstart : start ≤ st.size)
    (hcalm : st.current.proto.Calm start)
    (hadmits : ∀ l ∈ st.current.locals, l.captured = true → l.register < b.level →
      st.current.proto.Admits ν start l)
    (hfresh : ∀ l ∈ (ν start).locals, l.register < b.level ∨ l.start = start) :
    ∃ ν', Crosses [] ν es st st' ν' := by
  have hlayered := hc.noted.layered
  rw [hb] at hlayered
  have hlevel : b.level ≤ st.level := hlayered.1.level
  obtain ⟨hsize₁, hlocals₁, hblocks₁, ν₁, hc₁, honward₁, -⟩ :=
    closeIf_charted hclose hc hlevel hlevel (Nat.lt_of_le_of_lt hlevel hlt)
  have hlive : ∀ l, (ν₁ st₁.size).Live l → st₁.current.proto.Admits ν₁ start l := by
    intro l hl
    obtain ⟨hmem, hcaptured, hlt'⟩ := hc₁.live_iff.mp hl
    rw [hlocals₁] at hmem
    refine honward₁.admits (hadmits l hmem hcaptured ?_)
    split at hlt'
    next => exact hlt'
    next hnone =>
      refine Nat.lt_of_not_le fun hge => hnone ?_
      exact hlayered.1.captured l hmem hge (live_lt hc hmem) hcaptured
  have hdone : ∀ l, (ν₁ st₁.size).Done l → l ∈ (ν₁ start).locals →
      (ν₁ start).Done l ∨ l.start = start := by
    intro l hl
    have hge : b.level ≤ l.register := by
      have hshut := hc₁.shut ▸ hl.2
      split at hshut
      · exact hshut
      · exact Nat.le_trans hlevel hshut
    exact honward₁.done hstart fun hmem =>
      .inr ((hfresh l hmem).resolve_left (Nat.not_lt_of_le hge))
  obtain ⟨-, hlocals, hblocks, ν', hc', honward⟩ := jumpBack_charted hback hc₁
    (Nat.le_trans hstart hsize₁) (honward₁.retains.calm hstart hcalm) hlive hdone
  have hlevel₁ : st.level ≤ st₁.level := Nat.le_of_eq (congrArg Array.size hlocals₁).symm
  exact ⟨ν', .of_blocks hc' (hlocals.trans hlocals₁) (hblocks.trans hblocks₁)
    (honward₁.trans honward hc₁.noted hlevel₁)⟩

/-- The end of a `repeat` loop. -/
theorem repeatUntil_crosses
    (h : repeatUntil start condition (fun t => evaluate condition (.register t)) st = .ok u st')
    (hs : Sound Prototype.WellFormed ps st) (hc : Charted ν es st.level st)
    (hb : st.current.blocks = b :: outer) (hstart : start ≤ st.size)
    (hcalm : st.current.proto.Calm start)
    (hadmits : ∀ l ∈ st.current.locals, l.captured = true → l.register < b.level →
      st.current.proto.Admits ν start l)
    (hfresh : ∀ l ∈ (ν start).locals, l.register < b.level ∨ l.start = start) :
    ∃ ν', Crosses [] ν es st st' ν' := by
  simp only [repeatUntil, bind_ok] at h
  obtain ⟨block, st₀, hblock, h⟩ := h
  obtain rfl := currentBlock_eq hblock hb
  obtain ⟨rfl, -⟩ := currentBlock_ok hblock
  have hlt := hs.level_lt
  -- what is known at the start of the end is known later on
  have hlater : ∀ {st₁ ν₁ es₁}, Crosses [] ν es₁ st₀ st₁ ν₁ → st₁.current.blocks = st₀.current.blocks →
      start ≤ st₁.size ∧ st₁.current.proto.Calm start ∧ st₁.current.blocks = block :: outer ∧
        st₁.level < 256 ∧ (∀ l ∈ st₁.current.locals, l.captured = true → l.register < block.level →
          st₁.current.proto.Admits ν₁ start l) ∧
        ∀ l ∈ (ν₁ start).locals, l.register < block.level ∨ l.start = start := by
    intro st₁ ν₁ es₁ h₁ hblocks₁
    refine ⟨Nat.le_trans hstart h₁.size, h₁.onward.retains.calm hstart hcalm, hblocks₁.trans hb,
      h₁.level ▸ hlt, fun l hl hcaptured hlt' => h₁.onward.admits (hadmits l ?_ hcaptured hlt'),
      fun l hl => (h₁.onward.known hstart hl).elim (hfresh l) .inr⟩
    rw [← h₁.locals]
    exact hl
  cases hfold : condition.fold with
  | some k =>
    simp only [hfold] at h
    split at h
    · simp only [bind_ok] at h
      obtain ⟨_, st₁, hline, _, st₂, hclose, hback⟩ := h
      have h₁ := setLine_crosses hline hc
      have hblocks₁ : st₁.current.blocks = st₀.current.blocks :=
        congrArg FunctionScope.blocks (setLine_charted hline hc).1
      obtain ⟨hstart₁, hcalm₁, hb₁, hlt₁, hadmits₁, hfresh₁⟩ := hlater h₁ hblocks₁
      obtain ⟨ν', h'⟩ :=
        closeBack_crosses hclose hback h₁.charted hb₁ hlt₁ hstart₁ hcalm₁ hadmits₁ hfresh₁
      exact ⟨ν', h₁.followed h'⟩
    · simp only [pure_ok] at h
      obtain ⟨-, rfl⟩ := h
      exact ⟨ν, .refl hc⟩
  | none =>
    simp only [hfold, bind_ok, free_ok, and_assoc, exists_and_left, exists_eq_left] at h
    obtain ⟨r, st₁, hvalue, _, st₂, hline, h⟩ := h
    obtain ⟨t, hstraight, -, -⟩ := straight_toAnyRegister hvalue hs
    have hstraight₂ := hstraight.trans (straight_setLine hline hstraight.sound)
    obtain ⟨ν₂, h₂⟩ := hstraight₂.crosses hc
    have hblocks₂ := hstraight₂.step.keeps.current.blocks
    split at h
    next hcaptured =>
      simp only [bind_ok] at h
      obtain ⟨_, st₃, htest, leave, st₄, hleave, _, st₅, hrelease, _, st₆, hclose, _, st₇, hback,
        hpatch⟩ := h
      obtain ⟨-, hlocals₄, hblocks₄, hop, ν₄, hc₄, hlive, hbusy, honward₄⟩ :=
        emitTest_charted htest hleave h₂.charted
      have h₄ := h₂.followed (.of_blocks hc₄ hlocals₄ hblocks₄ honward₄)
      obtain ⟨h₅', hblocks₅'⟩ := release_crosses hrelease hc₄
      have h₅ := h₄.followed h₅'
      have hblocks₅ : st₅.current.blocks = st₀.current.blocks := by
        rw [hblocks₅', hblocks₄, hblocks₂]
      obtain ⟨hstart₅, hcalm₅, hb₅, hlt₅, hadmits₅, hfresh₅⟩ := hlater h₅ hblocks₅
      obtain ⟨ν₇, h₇'⟩ := closeBack_crosses (by rw [hcaptured]; exact hclose) hback h₅'.charted hb₅
        hlt₅ hstart₅ hcalm₅ hadmits₅ hfresh₅
      have hpending : Pending ν₄ st₄ leave :=
        ⟨hop, fun l hl => hlocals₄.symm ▸ (hlive l hl).1, fun l hl => absurd hl (hbusy l)⟩
      obtain ⟨h', -⟩ := patchHere_crosses hpatch h₇'.charted (hpending.crosses (h₅'.followed h₇'))
      exact ⟨ν₇, (h₅.followed h₇').followed h'⟩
    next =>
      simp only [bind_ok, jumpBack] at h
      obtain ⟨_, st₃, htest, _, st₅, ⟨m, st₄, hjump, hpatch⟩, hrelease⟩ := h
      obtain ⟨-, hlocals₄, hblocks₄, hop, ν₄, hc₄, hlive, hbusy, honward₄⟩ :=
        emitTest_charted htest hjump h₂.charted
      have h₄ := h₂.followed (.of_blocks hc₄ hlocals₄ hblocks₄ honward₄)
      obtain ⟨hstart₄, hcalm₄, hb₄, -, hadmits₄, -⟩ := hlater h₄ (hblocks₄.trans hblocks₂)
      have hkept : ∀ l, (ν₄ m).Live l → st₄.current.proto.Admits ν₄ start l := by
        intro l hl
        obtain ⟨hmem, hcaptured⟩ := hlive l hl
        rw [← hlocals₄] at hmem
        have hlayered := hc₄.noted.layered
        rw [hb₄] at hlayered
        refine hadmits₄ l hmem hcaptured (Nat.lt_of_not_le fun hge => ?_)
        exact absurd (hlayered.1.captured l hmem hge (live_lt hc₄ hmem) hcaptured) ‹_›
      obtain ⟨-, hlocals₅, hblocks₅, hc₅, honward₅, -⟩ :=
        patchJump_charted hpatch hc₄ hop hstart₄ hcalm₄ hkept fun l hl => absurd hl (hbusy l)
      have hlevel₅ : st₅.level = st₄.level := congrArg Array.size hlocals₅
      have h₅ := h₄.followed (.of_blocks (hlevel₅ ▸ hc₅) hlocals₅ hblocks₅ honward₅)
      exact ⟨ν₄, h₅.followed (release_crosses hrelease h₅.charted).1⟩

/-! ## Loops with a condition -/

/-- The jumps that leave a loop go on behind it. -/
theorem WholeBlock.leaves {es' : List Nat} (h : WholeBlock true b places ν es st st₁ ν')
    (h' : Crosses [] ν' (b.breaks ++ es') st₁ st'' ν'') (hpatch : patchBreaks b st'' = .ok u st') :
    Crosses places ν es' st st' ν'' :=
  (h.crosses.followed h').followed
    (patchAllHere_crosses hpatch h'.charted fun n hn => (h.breaks n hn).crosses h')

theorem charts_while (line : Nat) (hbody : ChartsBlock .loop body) :
    Charts (.whileLoop condition body line) := by
  intro env st st' u ν es hready hc hclean hes hregular hfair h
  obtain ⟨ps, hs⟩ := hready.sound
  rw [ofStmt] at hfair ⊢
  rw [Sites.stmt] at hregular
  have hinner : ∀ s ∈ Sites.stmts env.loop body, s.Regular :=
    fun s hs => hregular s (List.mem_append_right _ hs)
  rw [statement, bind_ok] at h
  obtain ⟨_, st₁, hline, h⟩ := h
  have hready₁ := hready.step (setLine_step hline hs)
  have h₁ := setLine_crosses hline hc
  have hclean₁ := h₁.clean hc.toCharting hclean
  have hes₁ : ∀ n ∈ es, n < st₁.size := fun n hn => Nat.lt_of_lt_of_le (hes n hn) h₁.size
  cases hfold : condition.fold with
  | some k =>
    simp only [hfold] at h
    split at h
    next =>
      simp only [pure_ok] at h
      obtain ⟨-, rfl⟩ := h
      exact ⟨ν, (h₁.mono (List.nil_subset _)).toPasses⟩
    next =>
      simp only [bind_ok, here_ok, and_assoc, exists_and_left, exists_eq_left] at h
      obtain ⟨b, st₂, hblock, _, st₃, hline', _, st₄, hback, hbreaks⟩ := h
      obtain ⟨ν₂, h₂⟩ :=
        inBlock_crosses hbody (by simp) hblock hready₁ h₁.charted hclean₁ hes₁ hinner hfair
      have h₃ := setLine_crosses hline' h₂.crosses.charted
      have hsince := h₂.crosses.followed h₃
      obtain ⟨hcalm, hadmits⟩ := hsince.back h₁.charted
      obtain ⟨ν₄, h₄⟩ := jumpBack_crosses hback h₃.charted hsince.size hcalm
        (fun l hl => hadmits l (hsince.live hl).1 (hsince.live hl).2)
        fun l hl => absurd hl (h₃.charted.not_done l)
      exact ⟨ν₄, (h₁.after (h₂.leaves (h₃.after h₄) hbreaks)).toPasses⟩
  | none =>
    simp only [hfold, bind_ok, here_ok, and_assoc, exists_and_left, exists_eq_left] at h
    obtain ⟨leave, st₂, hleave, b, st₃, hblock, _, st₄, hline', _, st₅, hback, _, st₆, hpatch,
      hbreaks⟩ := h
    obtain ⟨ps₁, hs₁⟩ := hready₁.sound
    obtain ⟨ν₂, h₂, -, hpending⟩ := jumpIfFalse_crosses hleave hs₁ h₁.charted
    have hstep₂ :=
      (jumpIfFalse_step hleave hs₁ (exprSound closed_wellFormed condition).evaluation).1
    obtain ⟨ν₃, h₃⟩ :=
      inBlock_crosses hbody (by simp) hblock (hready₁.step hstep₂) h₂.charted
        (h₂.clean h₁.charted.toCharting hclean₁) (fun n hn => by
        rcases List.mem_cons.mp hn with rfl | hn
        · exact hpending.lt
        · exact Nat.lt_of_lt_of_le (hes₁ n hn) h₂.size) hinner hfair
    have h₄ := setLine_crosses hline' h₃.crosses.charted
    have hsince := h₂.after (h₃.crosses.followed h₄)
    obtain ⟨hcalm, hadmits⟩ := hsince.back h₁.charted
    obtain ⟨ν₅, h₅⟩ := jumpBack_crosses hback h₄.charted hsince.size hcalm
      (fun l hl => hadmits l (hsince.live hl).1 (hsince.live hl).2)
      fun l hl => absurd hl (h₄.charted.not_done l)
    have h₅' : Crosses [] ν₃ (leave :: (b.breaks ++ es)) st₃ st₅ ν₅ := (h₄.after h₅).congr fun m => by
      simp only [List.mem_append, List.mem_cons, or_left_comm]
    obtain ⟨h₆, -⟩ := patchHere_crosses hpatch h₅'.charted
      ((hpending.crosses h₃.crosses).crosses h₅')
    exact ⟨ν₅, (h₁.after (h₂.after (h₃.leaves (h₅'.followed h₆) hbreaks))).toPasses⟩

theorem charts_repeat (line : Nat) (hbody : ChartsBlock .repeats body) :
    Charts (.repeatLoop body condition line) := by
  intro env st st' u ν es hready hc hclean hes hregular hfair h
  obtain ⟨ps, hs⟩ := hready.sound
  rw [ofStmt] at hfair ⊢
  rw [Sites.stmt] at hregular
  have hinner : ∀ s ∈ Sites.stmts env.loop body, s.Regular :=
    fun s hs => hregular s (List.mem_append_left _ hs)
  rw [statement] at h
  simp only [bind_ok, here_ok, and_assoc, exists_and_left, exists_eq_left] at h
  obtain ⟨_, st₁, hline, _, st₂, hbegin, _, st₃, hrun, _, st₄, huntil, b, st₅, hclose, hbreaks⟩ := h
  have hready₁ := hready.step (setLine_step hline hs)
  obtain ⟨ps₁, hs₁⟩ := hready₁.sound
  have h₁ := setLine_crosses hline hc
  have hclean₁ := h₁.clean hc.toCharting hclean
  obtain ⟨hsize₂, hlocals₂, hblocks₂, hc₂, honward₂⟩ := beginBlock_charted hbegin h₁.charted
  have hlevel₂ : st₂.level = st₁.level := congrArg Array.size hlocals₂
  have hready₂ := hready₁.begins hbegin
  obtain ⟨ps₂, hs₂⟩ := hready₂.sound
  have hgotos₂ := gotos_eq_cons hblocks₂
  have hvisible₂ : st₂.visible = st₁.visible := by
    unfold State.visible
    rw [hblocks₂]
    rfl
  obtain ⟨ν₃, shut, hcompletes, hshut⟩ := hbody env.loop _ _ _ _ _ st₁.level hready₂
    (hlevel₂ ▸ hc₂) (hclean₁.same h₁.charted.toCharting hvisible₂ honward₂)
    (fun n hn => by rw [hsize₂]; exact Nat.lt_of_lt_of_le (hes n hn) h₁.size)
    (by unfold State.waiting; rw [hgotos₂]; rfl)
    (fun b hb => by rw [hblocks₂] at hb; cases hb; rfl) hinner hfair hrun
  have hc₃ := hcompletes.charted
  rw [hshut rfl] at hc₃
  obtain ⟨m, hmove₃⟩ := statementsSound closed_wellFormed false body _ _ _ _ hs₂ hready₂.top hrun
  have hblocks₃ := hmove₃.extends'.current.blocks
  rw [hblocks₂] at hblocks₃
  obtain ⟨b₃, outer, hhead, -, hb₃⟩ := List.forall₂_cons_left_iff.mp hblocks₃
  have hstart : st₁.size ≤ st₃.size := hsize₂ ▸ hcompletes.onward.retains.size
  have honward₃ := honward₂.trans hcompletes.onward hc₂.noted (Nat.le_of_eq hlevel₂.symm)
  have hmem : ∀ l ∈ st₃.current.locals, l.register < b₃.level → l ∈ st₁.current.locals := by
    intro l hl hlt
    obtain ⟨more, hmore⟩ := hmove₃.extends'.current.locals
    obtain ⟨r, hr⟩ := Array.mem_iff_getElem?.mp hl
    have hregister := hc₃.noted.registers r l hr
    have hlevel₃ : b₃.level = st₁.current.locals.size := hhead.1
    rw [hmore, hlocals₂, Array.getElem?_append_left (by omega)] at hr
    exact Array.mem_of_getElem? hr
  have hfresh : ∀ l ∈ (ν₃ st₁.size).locals, l.register < b₃.level ∨ l.start = st₁.size := by
    intro l hl
    refine (honward₃.known (Nat.le_refl _) hl).imp_left fun hmem => ?_
    rw [show b₃.level = st₁.level from hhead.1]
    exact live_lt h₁.charted (h₁.charted.noted.locals ▸ hmem)
  obtain ⟨ν₄, h₄⟩ := repeatUntil_crosses huntil hmove₃.sound hc₃ hb₃ hstart
    (honward₃.retains.calm (Nat.le_refl _) h₁.charted.calm) (fun l hl hcaptured hlt =>
      honward₃.enters l (h₁.charted.live_iff.mpr ⟨hmem l hl hlt, hcaptured,
        live_lt h₁.charted (hmem l hl hlt)⟩)) hfresh
  have hfill := filling false body _ _ _ hready₂ hrun
  have hblock := encloses (.refl hs₁.exists_scope) hbegin (.refl hc₂.alive) hfill
    (repeatUntil_appends huntil hmove₃.sound (exprSound closed_wellFormed condition).evaluation) hclose
  have hlevel₃ : st₂.level ≤ st₃.level := by
    obtain ⟨more, hmore⟩ := hmove₃.extends'.current.locals
    rw [State.level, State.level, hmore, Array.size_append]
    exact Nat.le_add_right _ _
  obtain ⟨ν₅, h₅, -⟩ := Completes.closes
    (by rw [h₄.outline, outline_of_extends hmove₃.extends', State.outline, hblocks₂]; rfl) h₄.charted
    (honward₃.trans h₄.onward hc₃.noted (hlevel₂ ▸ hlevel₃))
    (by rw [h₄.outer, hcompletes.outer, hgotos₂]; rfl)
    (by rw [h₄.level, ← hlevel₂]; exact hlevel₃) (h₄.level ▸ hmove₃.sound.level_lt)
    (fun g hg => by
      rw [← hvisible₂]
      exact hcompletes.waiting g ((h₄.waiting g hg).resolve_right (by simp)))
    hclose hblock.appends.blocks
  exact ⟨ν₅, (h₁.after (h₅.leaves (.refl h₅.crosses.charted) hbreaks)).toPasses⟩

end Generator
end LuaMachine
