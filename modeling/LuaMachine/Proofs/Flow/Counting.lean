import LuaMachine.Proofs.Flow.Choices
/-! # Loops with a state

The words of a counting loop and of a loop over an iterator belong together, and all words between
them see the state of the loop in three hidden variables.

* `Generator.Counting`: the state of a loop in front of its first word.
* `Generator.emitLoop_crosses`, `patchLoop_crosses`: the words of a loop.
* `Generator.charts_numericFor`, `charts_genericFor`: the loops.
-/
set_option autoImplicit false

namespace LuaMachine

/-- The word of a loop has its state in these registers and this target. -/
def Prototype.HasLoop (p : Prototype) (op : Opcode) (n a t : Nat) : Prop :=
  ∃ i, p.chunk.code[n]? = some i ∧ i.opcode? = some op ∧ i.a = a ∧
    (n : Int) + 1 + i.signedBx = t

namespace Generator

open Prototype Jumps Lowering

variable {ps : List Nat} {places : List Place} {st st' st'' st₁ st₂ st₃ st₄ : State}
  {ν ν' ν'' : Nat → Note} {es : List Nat} {n t base line shut : Nat} {u : Unit} {l : Local}
  {b : ScopeBlock} {body : Block} {op : Opcode} {i : Instruction}

/-! ## The state of a loop -/

/-- A block has begun that has the state of a loop in three hidden variables. -/
structure Counting (ν : Nat → Note) (es : List Nat) (st st' : State) (ν' : Nat → Note) : Prop where
  ready : Ready st'
  charted : Charted ν' es st'.level st'
  onward : st.current.Onward st.level ν st'.current ν'
  gotos : st'.gotos = [] :: st.gotos
  outline : st'.outline = (st.level, false) :: st.outline
  visible : st'.visible = st.visible
  level : st'.level = st.level + 3
  hides : (Note.full st'.current.locals).Hides st.level

/-- No labels are added. -/
theorem Counting.clean {es' : List Nat} (h : Counting ν es st st' ν') (hc : Charting ν es' shut st)
    (hclean : Clean ν st) : Clean ν' st' :=
  hclean.same hc h.visible h.onward

theorem counting_of_state {u₁ u₂ u₃ : Unit} (hbegin : beginBlock false st = .ok u₁ st₁)
    (hstraight : ∀ ps, Sound Prototype.WellFormed ps st₁ →
      Straight ps st₁ st₂ (st₁.top + 3) none)
    (hstate : addLoopState st₂ = .ok u₂ st₃) (hline : setLine line st₃ = .ok u₃ st')
    (hready : Ready st) (hc : Charted ν es st.level st) : ∃ ν', Counting ν es st st' ν' := by
  obtain ⟨ps, hs⟩ := hready.sound
  obtain ⟨hs₁, htop₁, hlevel₁, -⟩ := beginBlock_sound hbegin hs
  obtain ⟨-, -, hblocks₁, hc₁, honward₁⟩ := beginBlock_charted hbegin hc
  have h₂ := hstraight ps hs₁
  obtain ⟨ν₂, hc₂, honward₂⟩ := straight_charted h₂ (hlevel₁ ▸ hc₁)
  obtain ⟨hlevel₃, hhides, ν₃, hd₃⟩ := addLoopState_charted hstate hc₂
  have hmove₃ := h₂.step.moves.trans (addLoopState_moves hstate h₂.sound)
  have happ₃ := (Appends.of_step h₂.step).trans
    (addLoopState_appends hstate h₂.sound.exists_scope)
  have hmove := hmove₃.followed (setLine_step hline hmove₃.sound).moves
  have hlevel₂ := h₂.level
  have htop₂ := h₂.top_eq
  have htop₃ := hmove₃.top_eq
  have htop := hready.top
  have hblocks₂ := h₂.step.keeps.current.blocks
  obtain ⟨hcurrent, hc'⟩ := setLine_charted hline hd₃.charted
  have hlevel' : st'.level = st₃.level := congrArg (fun s => s.locals.size) hcurrent
  have htop' := hmove.top_eq
  refine ⟨ν₃, ⟨⟨_, hmove.sound⟩, by omega, ?_⟩, hlevel' ▸ hc', ?_, ?_, ?_, ?_, by omega, ?_⟩
  · rw [hcurrent]
    refine happ₃.fills.blocks_ne_nil ?_
    rw [hblocks₁]
    exact List.cons_ne_nil _ _
  · rw [hcurrent]
    exact (honward₁.trans honward₂ hc₁.noted (Nat.le_of_eq hlevel₁.symm)).trans hd₃.onward
      hc₂.noted (by omega)
  · unfold State.gotos
    rw [hcurrent]
    change st₃.gotos = _
    rw [hd₃.gotos, State.gotos, hblocks₂, hblocks₁]
    rfl
  · unfold State.outline
    rw [hcurrent]
    change st₃.outline = _
    rw [hd₃.outline, State.outline, hblocks₂, hblocks₁]
    rfl
  · unfold State.visible
    rw [hcurrent]
    change st₃.visible = _
    rw [happ₃.visible, State.visible, hblocks₁]
    rfl
  · rw [hcurrent]
    rw [hlevel₂, hlevel₁] at hhides
    exact hhides

/-- The block of the loop begins with its variables. -/
theorem loopVariables_charted (bs : List Binder) {r : Nat} {u₁ u₂ : Unit}
    (hbegin : beginBlock true st = .ok u₁ st₁) (hreserve : reserve bs.length line st₁ = .ok r st₂)
    (hmore : ∀ ps, Sound Prototype.WellFormed ps st₂ →
      Straight ps st₂ st₃ st₂.top none ∧ st₃.size = st₂.size)
    (hbinders : bs.forM addBinder st₃ = .ok u₂ st₄) (hready : Ready st)
    (hc : Charted ν es st.level st) :
    Ready st₄ ∧ Appends [] st₁ st₄ ∧ st₄.size = st.size ∧ st₄.gotos = st₁.gotos ∧
      st₄.outline = st₁.outline ∧ st₄.level = st.level + bs.length ∧
      (bs ≠ [] → ∃ l, st₄.current.locals[st.level]? = some l ∧ l.start = st.size) ∧
      ∃ ν', Charted ν' es st₄.level st₄ ∧ st.current.Onward st.level ν st₄.current ν' := by
  obtain ⟨ps, hs⟩ := hready.sound
  obtain ⟨hs₁, htop₁, hlevel₁, -⟩ := beginBlock_sound hbegin hs
  obtain ⟨hsize₁, -, hblocks₁, hc₁, honward₁⟩ := beginBlock_charted hbegin hc
  obtain ⟨h₂, rfl⟩ := straight_reserve hreserve hs₁
  obtain ⟨h₃', hsize⟩ := hmore ps h₂.sound
  have h₃ := h₂.trans h₃'
  obtain ⟨ν₃, hcross₃⟩ := h₃.crosses (hlevel₁ ▸ hc₁)
  obtain ⟨hfirst, hle, ν₄, hd₄⟩ := addBinders_charted hbinders hcross₃.charted
  have hmove₄ := h₃.step.moves.trans (addBinders_moves hbinders h₃.sound)
  have happ₃ := Appends.of_step h₃.step
  have happ₄ := happ₃.trans (addBinders_appends hbinders happ₃.alive)
  have htop₂ := h₂.top_eq
  have htop₃ := h₃.top_eq
  have hlevel₃ := h₃.level
  have htop₄ := hmove₄.top_eq
  have hlevel₄ := hmove₄.level_eq
  have htop := hready.top
  have hready₁ := hready.begins hbegin
  refine ⟨⟨⟨ps, hmove₄.sound⟩, by omega, happ₄.fills.blocks_ne_nil hready₁.blocks⟩, happ₄, ?_,
    hd₄.gotos.trans (congrArg (List.map ScopeBlock.gotos) h₃.step.keeps.current.blocks),
    hd₄.outline.trans hcross₃.outline, by omega, fun hne => ?_, ν₄, hd₄.charted, ?_⟩
  · rw [hd₄.size, hsize, reserve_size hreserve hs₁, hsize₁]
  · rw [← hsize₁, ← reserve_size hreserve hs₁, ← hsize, ← hlevel₁, ← hlevel₃]
    exact hfirst hne
  · exact (honward₁.trans hcross₃.onward hc₁.noted (Nat.le_of_eq hlevel₁.symm)).trans hd₄.onward
      hcross₃.charted.noted (by omega)

/-! ## Words of loops -/

/-- A word that is no jump does not wait in a block. -/
theorem Charting.mem_of_free {es' : List Nat} (hc : Charting ν es' shut st)
    (hop : st.current.proto.opcodeAt? n = some op) (hjump : op ≠ .jump)
    (hfree : st.current.Free es n) : n ∈ es := by
  refine hfree.resolve_right ?_
  rintro ⟨b, hb, hwaits⟩
  have hlayered := hc.noted.layered
  generalize st.current.locals.size = bound at hlayered
  generalize hblocks : st.current.blocks = bs at hb hlayered
  clear hblocks
  induction bs generalizing bound with
  | nil => cases hb
  | cons b' bs ih =>
    rcases List.mem_cons.mp hb with rfl | hb
    · rcases hwaits with ⟨g, hg, rfl⟩ | hmem
      · exact hjump (Option.some.inj (hop.symm.trans (hlayered.1.gotos g hg).1))
      · exact hjump (Option.some.inj (hop.symm.trans (hlayered.1.breaks n hmem).2.1))
    · exact ih _ hb hlayered.2

/-- A word that reads the state of the loop and waits for its target. -/
theorem emitState_crosses (h : emit i st = .ok n st') (hc : Charted ν es st.level st)
    (hop : i.opcode? = some op)
    (hplain : op = .forPrepare ∨ op = .forLoop ∨ op = .iterCall ∨ op = .iterLoop)
    (ha : i.a + 3 = st.level)
    (hhides : (Note.full st.current.locals).Hides i.a) :
    n = st.size ∧ st'.size = st.size + 1 ∧ st'.current.proto.chunk.code[n]? = some i ∧
      ∃ ν', Crosses [] ν (n :: es) st st' ν' ∧ ν' n = ν n := by
  have hwrites : ∀ a, op.lowest? a = none := by
    rcases hplain with rfl | rfl | rfl | rfl <;> exact fun _ => rfl
  have htakes : ∀ s, op.takes? i.a i.b ≠ some s := by
    rcases hplain with rfl | rfl | rfl | rfl <;> exact fun _ heq => by cases heq
  have hopens : op.opens? i.a i.c = none := by
    rcases hplain with rfl | rfl | rfl | rfl <;> rfl
  obtain ⟨rfl, hsize, hlocals, hblocks, hi, ν', hc', hhere, honward⟩ :=
    emit_charted h hc.toCharting hop (Nat.le_refl st.level)
      (hc.minds hwrites (fun s hs => absurd hs (htakes s))
        (by rcases hplain with rfl | rfl | rfl | rfl <;> simp)
        (fun _ => ⟨ha, hhides⟩)
        fun hlt => absurd hlt (Nat.lt_irrefl _))
      (fun hclose => by rcases hplain with rfl | rfl | rfl | rfl <;> cases hclose) hopens
  have hlevel : st'.level = st.level := congrArg Array.size hlocals
  exact ⟨rfl, hsize, hi, ν', .of_blocks (hlevel ▸ hc') hlocals hblocks honward, hhere⟩

theorem patchLoop_crosses (h : patchLoop n t st = .ok u st') (hc : Charted ν es st.level st)
    (hn : n ∈ es) (hi : st.current.proto.chunk.code[n]? = some i) (hop : i.opcode? = some op)
    (hlink : op.isLink = true) :
    Crosses [] ν es st st' ν ∧ st'.size = st.size ∧ st'.current.proto.HasLoop op n i.a t ∧
      ∀ m, m ≠ n → st'.current.proto.chunk.code[m]? = st.current.proto.chunk.code[m]? := by
  obtain ⟨hd, hword, hsame, hsize, hlocals, hblocks, hc', honward⟩ :=
    patchWithin_charted h hc (.inl hn) hi hop hlink fun _ =>
      ⟨Instruction.opcode?_withSignedBx i, fun _ => Instruction.a_withSignedBx i⟩
  have hlevel : st'.level = st.level := congrArg Array.size hlocals
  refine ⟨.of_blocks (hlevel ▸ hc') hlocals hblocks honward, hsize, ⟨_, hword,
    (Instruction.opcode?_withSignedBx i).trans hop, Instruction.a_withSignedBx i, ?_⟩, hsame⟩
  rw [Instruction.signedBx_withSignedBx i hd, distance]
  omega

/-! ## Around the block of a loop -/

/-- Where a word was written with the captured variables of the scope in use, they are in use at the
word, and none is done. -/
theorem Charted.uses {locals : Array Local} (hc : Charted ν es st.level st)
    (hlocals : st.current.locals = locals) (hnote : ν' n = ν st.size) :
    (∀ l, (ν' n).Live l ↔ l ∈ locals ∧ l.captured = true) ∧ ∀ l, ¬(ν' n).Done l := by
  subst hlocals
  rw [hnote]
  exact ⟨fun _ => live_iff_mem hc, hc.not_done⟩

/-- What such a word knows of the variables around a block, each word of the block knows. -/
theorem Crosses.within {es' : List Nat} {ν₁ : Nat → Note} {r : Nat}
    (h : Crosses places ν₁ es' st₁ st₂ ν') (hc : Charted ν es st.level st)
    (hlocals : st.current.locals = st₁.current.locals) (hnote : ν' n = ν st.size)
    (hle : st₁.size ≤ t) (hle' : t ≤ st₂.size) (hl : (ν' n).locals[r]? = some l) :
    (ν' t).locals[r]? = some l := by
  have hknown : (ν st.size).locals = st.current.locals := hc.noted.locals
  rw [hnote, hknown, hlocals] at hl
  exact h.onward.within t hle hle' r l (Array.getElem?_eq_some_iff.mp hl).1 hl

/-- The words of a loop behind its block do not wait with the jumps that leave the block. -/
theorem WholeBlock.not_free {es' es₂ es₃ : List Nat} {places' : List Place} {ν₃ : Nat → Note}
    (h : WholeBlock true b places ν es' st₁ st₂ ν') (hwords : Crosses places' ν' es₂ st₂ st₃ ν₃)
    (hc : Charting ν₃ es₃ shut st₃) (hop : st₃.current.proto.opcodeAt? n = some op)
    (hjump : op ≠ .jump) (hn : n ∉ es) : ¬st₃.current.Free (b.breaks ++ es) n := fun hfree => by
  rcases List.mem_append.mp (hc.mem_of_free hop hjump hfree) with hmem | hmem
  · exact hjump (Option.some.inj (hop.symm.trans ((h.breaks _ hmem).crosses hwords).1))
  · exact hn hmem

/-- The last word of a loop goes back to the block or on behind the loop, where the same variables
are in use. -/
theorem Crosses.settlesBack {es₁ es' : List Nat} {ν₁ : Nat → Note} {a : Nat} {free : Nat → Prop}
    (h : Crosses places ν₁ es' st₁ st₂ ν') (hc : Charted ν₁ es₁ st₁.level st₁)
    (hloop : st₂.current.proto.HasLoop op n a st₁.size) (hop : op = .forLoop ∨ op = .iterLoop)
    (hend : st₂.size = n + 1)
    (huses : (∀ l, (ν' n).Live l ↔ l ∈ st₁.current.locals ∧ l.captured = true) ∧
      ∀ l, ¬(ν' n).Done l) :
    st₂.current.proto.Settled ν' free n := by
  obtain ⟨hlive, hbusy⟩ := huses
  obtain ⟨hcalm, hadmits⟩ := h.back hc
  obtain ⟨hlive', -⟩ := h.charted.uses h.locals rfl
  obtain ⟨i, hi, hopcode, -, htarget⟩ := hloop
  have htargets : i.targets n op = [(n : Int) + 1 + i.signedBx] := by
    rcases hop with rfl | rfl <;> rfl
  refine settled_word hi hopcode (by rcases hop with rfl | rfl <;> simp) (fun t ht => ?_)
    (fun _ _ l hl _ => .inr ⟨hend.symm, hend ▸ (hlive' l).mpr ((hlive l).mp hl)⟩)
    (leaves_of_busy hi hopcode (by rcases hop with rfl | rfl <;> simp) hbusy)
    (by rcases hop with rfl | rfl <;> simp) (by rcases hop with rfl | rfl <;> simp)
  rw [htargets, List.mem_singleton] at ht
  obtain rfl : t = st₁.size := by omega
  exact ⟨h.size, hcalm, fun l hl => ((hlive l).mp hl).elim (hadmits l)⟩

/-! ## Counting loops -/

/-- The variables of the loop are declared behind its first word, other than its state. -/
theorem Counting.splits (h : Counting ν es st st₁ ν') {es' : List Nat}
    (h' : Crosses [] ν' es' st₁ st₂ ν'') (hsize : st₂.size = st₁.size + 1)
    (hfirst : ∃ l, st₃.current.locals[st₂.level]? = some l ∧ l.start = st₂.size)
    {ν₃ : Nat → Note} (hc : Charted ν₃ es' st₃.level st₃)
    (honward : st₂.current.Onward st₂.level ν'' st₃.current ν₃) :
    (Note.full st₃.current.locals).Splits (st.level + 2) := by
  obtain ⟨l', hl', hstart'⟩ := hfirst
  obtain ⟨s, hs⟩ := h.hides
  obtain ⟨l, hl, -⟩ := hs (st.level + 2) (by omega) (by omega)
  have hl : st₁.current.locals[st.level + 2]? = some l := hl
  have hlevel₁ := h.level
  have hlevel₂ := h'.level
  have hstart := h.charted.noted.start_le (Array.mem_of_getElem? hl)
  have hsize₁ : st₁.current.proto.chunk.size = st₁.size := rfl
  refine ⟨l, l', ?_, ?_, by omega⟩
  · change st₃.current.locals[st.level + 2]? = some l
    rw [← hc.noted.locals]
    refine honward.within _ honward.retains.size (Nat.le_refl _) _ l (by omega) ?_
    rw [h'.locals]
    exact hl
  · change st₃.current.locals[st.level + 2 + 1]? = some l'
    rw [← hl']
    congr 1
    omega

/-- What stands between the begin and the end of the block that has the state of a loop. -/
theorem Counting.concludes (h : Counting ν es st st₁ ν')
    (h' : Crosses places ν' es st₁ st₂ ν'') (hlt : st₁.level < 256)
    (hclose : closeBlock st₂ = .ok b st')
    (hgains : List.Forall₂ (ScopeBlock.Gains st.size) st.current.blocks st'.current.blocks) :
    ∃ ν₃, Crosses places ν es st st' ν₃ := by
  have hlevel := h.level
  have hwaiting : ∀ g ∈ st₂.waiting,
      (∃ p ∈ places, p.Leaves g.name) ∧ ∀ L ∈ st.visible, L.name ≠ g.name := by
    intro g hg
    rw [← h.visible]
    refine ((h'.waiting g hg).resolve_left fun hold => ?_).2
    unfold State.waiting at hold
    rw [h.gotos] at hold
    cases hold
  obtain ⟨ν₃, hblock, -⟩ := Completes.closes (h'.outline.trans h.outline) h'.charted
    (h.onward.trans h'.onward h.charted.noted (by omega))
    (by rw [h'.outer, h.gotos]; rfl) (by rw [h'.level]; omega) (by rw [h'.level]; exact hlt)
    hwaiting hclose hgains
  exact ⟨ν₃, hblock.whole⟩

/-- A word that has been written keeps its operation and its first register. -/
theorem Crosses.word (h : Crosses places ν es st st' ν') (hi : st.current.proto.chunk.code[n]? = some i)
    (hop : i.opcode? = some op) (hjump : op ≠ .jump) :
    ∃ i', st'.current.proto.chunk.code[n]? = some i' ∧ i'.opcode? = some op ∧ i'.a = i.a := by
  obtain ⟨i', hi', rfl | ⟨hop', op', hopcode, -, ha⟩⟩ := h.onward.retains.words n i hi
  · exact ⟨i', hi', hop, rfl⟩
  · cases hop.symm.trans hopcode
    exact ⟨i', hi', hop'.trans hop, ha hjump⟩

/-- The words of a counting loop around its block. -/
theorem countingWords_crosses {back : Nat} {u₁ u₂ u₃ : Unit} {st₅ st₆ : State} {ν₁ ν₂ : Nat → Note}
    (hc : Charted ν es st.level st) (h₁ : Crosses [] ν (st.size :: es) st st₁ ν₁)
    (hhere₁ : ν₁ st.size = ν st.size) (hsize₁ : st₁.size = st.size + 1)
    (hi₁ : st₁.current.proto.chunk.code[st.size]? = some (.asbx .forPrepare base 0))
    (h₂ : WholeBlock true b places ν₁ (st.size :: es) st₁ st₂ ν₂)
    (hline : setLine line st₂ = .ok u₁ st₃) (hback : emitLoop .forLoop base st₃ = .ok back st₄)
    (hpatch : patchLoop back st₁.size st₄ = .ok u₂ st₅)
    (hpatch' : patchLoop st.size back st₅ = .ok u₃ st₆) (hbreaks : patchBreaks b st₆ = .ok u st')
    (hes : ∀ n ∈ es, n < st.size) (hlt : st.level < 256) (hbase : base + 3 = st.level)
    (hhides : (Note.full st.current.locals).Hides base)
    (hsplits : ∀ t, st₁.size ≤ t → t < st₂.size → (ν₂ t).Splits (base + 2)) :
    ∃ ν', Crosses places ν es st st' ν' := by
  have ha : ∀ op, (Instruction.asbx op base 0).a = base := fun op =>
    Instruction.a_asbx _ (by omega) 0
  have h₃ := setLine_crosses hline h₂.crosses.charted
  have hsince₃ := h₂.crosses.followed h₃
  have hlocals₃ : st₃.current.locals = st.current.locals := hsince₃.locals.trans h₁.locals
  have hlevel₃ : st₃.level = st.level := congrArg Array.size hlocals₃
  obtain ⟨rfl, hsize₄, hi₄, ν₄, h₄, hhere₄⟩ := emitState_crosses hback h₃.charted
    (Instruction.opcode?_asbx _ 0) (.inr (.inl rfl)) (by rw [ha, hlevel₃]; exact hbase)
    (by rw [ha, hlocals₃]; exact hhides)
  obtain ⟨h₅, hsize₅, hloop₅, -⟩ := patchLoop_crosses hpatch h₄.charted List.mem_cons_self hi₄
    (Instruction.opcode?_asbx _ 0) rfl
  obtain ⟨i₅, hi₅, hop₅, ha₅⟩ := (hsince₃.followed (h₄.followed h₅)).word hi₁
    (Instruction.opcode?_asbx _ 0) (by simp)
  obtain ⟨h₆, hsize₆, hloop₆, hsame⟩ := patchLoop_crosses hpatch' h₅.charted (by simp) hi₅ hop₅ rfl
  rw [ha] at hloop₅ ha₅
  rw [ha₅] at hloop₆
  have hle := hsince₃.size
  have hback₆ : st₆.current.proto.HasLoop .forLoop st₃.size base st₁.size := by
    unfold HasLoop
    rw [hsame _ (by omega)]
    exact hloop₅
  have hwords := (h₃.followed h₄).followed (h₅.followed h₆)
  have hsince := h₂.crosses.followed hwords
  have hlast := h₄.followed (h₅.followed h₆)
  obtain ⟨hcalm, hadmits⟩ := hsince.back h₁.charted
  have hend : st₆.size = st₃.size + 1 := by omega
  -- the variables around the block are in use at its words
  have hnote : ν₄ st.size = ν st.size :=
    (hsince.onward.notes _ (show st.size < st₁.size by omega)).trans hhere₁
  obtain ⟨hstart, hbusy⟩ := hc.uses rfl hnote
  obtain ⟨hback, hbusy'⟩ := h₃.charted.uses hlocals₃ hhere₄
  obtain ⟨hend', -⟩ := h₆.charted.uses (hlast.locals.trans hlocals₃) rfl
  have hbody : ∀ l, l ∈ st.current.locals ∧ l.captured = true →
      st₆.current.proto.Admits ν₄ st₁.size l := fun l hl => hadmits l (h₁.locals ▸ hl.1) hl.2
  have hafter : ∀ l, l ∈ st.current.locals ∧ l.captured = true →
      st₆.current.proto.Admits ν₄ (st₃.size + 1) l := fun l hl =>
    .inr ⟨hend.symm, hend ▸ (hend' l).mpr hl⟩
  have hsettled : ∀ free, st₆.current.proto.Settled ν₄ free st₃.size := fun free =>
    hsince.settlesBack h₁.charted hback₆ (.inl rfl) hend
      (h₃.charted.uses (hlocals₃.trans h₁.locals.symm) hhere₄)
  have hfresh : ¬st₆.current.Free (b.breaks ++ es) st₃.size :=
    h₂.not_free hwords h₆.charted.toCharting
      (opcodeAt?_eq_some_iff.mpr (hback₆.imp fun _ h => ⟨h.1, h.2.1⟩)) (by simp) fun hmem => by
        have hlt' := hes _ hmem
        omega
  have hsettled' : st₆.current.proto.Settled ν₄ (st₆.current.Free (b.breaks ++ es)) st.size := by
    obtain ⟨i, hi, hop, ha', htarget⟩ := hloop₆
    refine settled_word hi hop (by simp) (fun t ht => ?_)
      (fun _ _ l hl _ => by rw [← hsize₁]; exact hbody l ((hstart l).mp hl))
      (leaves_of_busy hi hop (by simp) hbusy) (fun _ => ?_) (by simp)
    · simp only [Instruction.targets, List.mem_cons, List.not_mem_nil, or_false] at ht
      obtain rfl | rfl : t = st₃.size ∨ t = st₃.size + 1 := by omega
      · refine ⟨hlast.size, hlast.onward.retains.calm (Nat.le_refl _) h₃.charted.calm, fun l hl => ?_⟩
        exact .inl ⟨show st₃.size < st₆.size by omega, .inl ((hback l).mpr ((hstart l).mp hl))⟩
      · refine ⟨Nat.le_of_eq hend.symm, hend ▸ h₆.charted.calm, fun l hl => ?_⟩
        exact hafter l ((hstart l).mp hl)
    · intro i' hi' _
      cases hi.symm.trans hi'
      obtain ⟨j, hj, hjop, hja, hjtarget⟩ := hback₆
      refine ⟨st₃.size, j, by omega, hfresh, htarget, hj, hjop, hja.trans ha'.symm, by omega,
        fun t ht hle' r l hl => hsince.within hc h₁.locals.symm hnote (by omega) (by omega) hl,
        fun t ht hlt => ?_⟩
      · have hlt' : t < st₂.size := by rwa [State.size, (setLine_charted hline h₂.crosses.charted).1] at hlt
        rw [hwords.onward.notes t hlt', ha']
        exact hsplits t (by omega) hlt'
  have hwords' : Crosses [] ν₂ (st.size :: (b.breaks ++ es)) st₂ st₆ ν₄ :=
    (hwords.settle (hsettled _)).congr fun m => by
      simp only [List.mem_append, List.mem_cons, or_left_comm]
  exact ⟨ν₄, h₁.after (h₂.leaves (hwords'.settle hsettled') hbreaks)⟩

/-- The step of a loop that names none. -/
theorem straight_default {r : Nat} {k : Constant}
    (h : toTemporary line (fun r => loadConstant r k) st = .ok r st')
    (hs : Sound Prototype.WellFormed ps st) : Straight ps st st' (st.top + 1) none := by
  have hloads : Lowers Prototype.WellFormed (fun r => loadConstant r k)
      fun p _ r _ n n' => p.Loads n r k ∧ n' = n + 1 :=
    fun _ _ _ _ _ hs hr h => emits_loadConstant h hs hr
  obtain ⟨hemits, -⟩ := toTemporary_emits h hs hloads
  have hlevel := hs.level_le
  exact .of_tidied hemits fun p home hp =>
    tidyPart_loads k hp hlevel (Nat.le_succ_of_le hlevel)

/-- The words of the loop leave its state as it is. -/
theorem Counting.readyAgain (h : Counting ν es st st₁ ν') {es' : List Nat}
    (hmove : Moves Prototype.WellFormed ps st₁ st₂ st₁.top st₁.level)
    (h' : Crosses places ν' es' st₁ st₂ ν'') : Ready st₂ := by
  refine ⟨⟨ps, hmove.sound⟩, ?_, fun hnil => ?_⟩
  · rw [hmove.top_eq, hmove.level_eq]
    exact h.ready.top
  · have houtline := h'.outline.trans h.outline
    rw [State.outline, hnil] at houtline
    cases houtline

theorem charts_numericFor {binder : Binder} {start stop : Expr} {step : Option Expr} (line : Nat)
    (hbody : ChartsBlock .loop body) : Charts (.numericFor binder start stop step body line) := by
  intro env st st' u ν es hready hc hclean hes hregular hfair h
  obtain ⟨ps, hs⟩ := hready.sound
  have happends := (carries (.numericFor binder start stop step body line) rfl _ _ _ hready h).1
  rw [ofStmt] at hfair ⊢
  rw [Sites.stmt.eq_def] at hregular
  have hinner : ∀ s ∈ Sites.stmts (env.counting.loop.declare [binder]) body, s.Regular :=
    fun s hs => hregular s (List.mem_append_right _ hs)
  rw [statement.eq_def] at h
  simp only [bind_ok, here_ok, pure_ok, and_assoc, exists_and_left, exists_eq_left] at h
  obtain ⟨_, st₁, hline, _, st₂, hbegin, base, st₃, hfirst, _, st₄, hsecond, _, st₅, hthird, _, st₆,
    hstate, _, st₇, hline₂, prepare, st₈, hprepare, _, st₉, hbegin', r, st₁₀, hreserve, _, st₁₁,
    hbinder, _, st₁₂, hrun, loop, st₁₃, hclose, _, st₁₄, hline₃, back, st₁₅, hback, _, st₁₆,
    hpatch, _, st₁₇, hpatch', _, st₁₈, hbreaks, block, st₁₉, hclose', -, rfl⟩ := h
  have h₁ := setLine_crosses hline hc
  have hready₁ := hready.step (setLine_step hline hs)
  have hes₁ : ∀ n ∈ es, n < st₁.size := fun n hn => Nat.lt_of_lt_of_le (hes n hn) h₁.size
  obtain ⟨ps₁, hs₁⟩ := hready₁.sound
  obtain ⟨hs₂, htop₂, hlevel₂, -⟩ := beginBlock_sound hbegin hs₁
  obtain rfl := (straight_toTemporary hfirst hs₂).2
  have htop₁ := hready₁.top
  obtain ⟨ν₇, h₇⟩ := counting_of_state hbegin (fun ps hs => by
    obtain ⟨h₃, -⟩ := straight_toTemporary hfirst hs
    obtain ⟨h₄, -⟩ := straight_toTemporary hsecond h₃.sound
    have h₅ : Straight ps st₄ st₅ (st₄.top + 1) none := by
      cases step with
      | some e => exact (straight_toTemporary hthird h₄.sound).1
      | none => exact straight_default hthird h₄.sound
    have htop₃ := h₃.top_eq
    have htop₄ := h₄.top_eq
    exact ((h₃.trans h₄).trans h₅).cast (by omega)) hstate hline₂ hready₁ h₁.charted
  have hlevel₇ := h₇.level
  obtain ⟨ps₇, hs₇⟩ := h₇.ready.sound
  have ha : (Instruction.asbx .forPrepare st₂.top 0).a = st₂.top :=
    Instruction.a_asbx _ (by have hlt := hs₇.level_lt; omega) 0
  have hbase : st₂.top = st₁.level := by omega
  have hmove₈ := (emitLoop_moves hprepare hs₇ (by simp)).1
  obtain ⟨rfl, hsize₈, hi₈, ν₈, h₈, hhere₈⟩ := emitState_crosses hprepare h₇.charted
    (Instruction.opcode?_asbx _ 0) (.inl rfl) (by rw [ha]; omega)
    (by rw [ha, hbase]; exact h₇.hides)
  have hready₈ := h₇.readyAgain hmove₈ h₈
  obtain ⟨hready₁₁, happ₁₁, hsize₁₁, hgotos₁₁, houtline₁₁, hlevel₁₁, hfirst, ν₁₁, hc₁₁, honward₁₁⟩ :=
    loopVariables_charted [binder] hbegin' hreserve
      (fun ps hs => ⟨.silent (.refl hs) rfl, rfl⟩)
      (by simpa using hbinder) hready₈ h₈.charted
  have hes₇ : ∀ n ∈ es, n < st₇.size := fun n hn =>
    Nat.lt_of_lt_of_le (hes₁ n hn) h₇.onward.retains.size
  obtain ⟨ν₁₃, h₁₃, hwithin₁₃⟩ := hbody.closes (by simp) hbegin' hready₈.alive hready₁₁
    happ₁₁ h₈.charted.toCharting (h₈.clean h₇.charted.toCharting (h₇.clean h₁.charted.toCharting
      (h₁.clean hc.toCharting hclean))) hc₁₁ honward₁₁ hgotos₁₁ houtline₁₁ (by omega) (fun n hn => by
      rw [hsize₁₁, hsize₈]
      rcases List.mem_cons.mp hn with rfl | hn
      · exact Nat.lt_succ_self _
      · exact Nat.lt_succ_of_lt (hes₇ n hn)) hinner hfair hrun hclose
  have hstart : st₁₁.current.proto.chunk.size = st₈.size := hsize₁₁
  rw [hstart] at hpatch
  obtain ⟨ν', h'⟩ := countingWords_crosses h₇.charted h₈ hhere₈ hsize₈ hi₈ h₁₃ hline₃ hback hpatch
    hpatch' hbreaks hes₇ hs₇.level_lt (by omega) (by rw [hbase]; exact h₇.hides)
    fun t ht hlt => by
      rw [hbase]
      exact (h₇.splits h₈ hsize₈ (hfirst (by simp)) hc₁₁ honward₁₁).mono
        (hwithin₁₃ t (hsize₁₁ ▸ ht) hlt)
  obtain ⟨ν'', h''⟩ := h₇.concludes h' hs₇.level_lt hclose'
    (by rw [State.size, (setLine_charted hline hc).1]; exact happends.blocks)
  exact ⟨ν'', (h₁.after h'').toPasses⟩

/-! ## Loops over iterators -/

/-- The words of a loop over an iterator around its block. -/
theorem iteratingWords_crosses {back count : Nat} {u₁ u₂ u₃ u₄ : Unit} {st₅ st₆ st₇ : State}
    {ν₁ ν₂ : Nat → Note}
    (h₁ : Crosses [] ν (st.size :: es) st st₁ ν₁)
    (hpending : Pending ν₁ st₁ st.size) (hsize₁ : st₁.size = st.size + 1)
    (hidle : ScopeBlock.Idle st.size st₁.current.blocks)
    (h₂ : WholeBlock true b places ν₁ (st.size :: es) st₁ st₂ ν₂)
    (hinside : ∀ n ∈ b.breaks, st₁.size ≤ n)
    (hline : setLine line st₂ = .ok u₁ st₃) (henter : patchJumpHere st.size st₃ = .ok u₂ st₄)
    (hcall : emitAbc .iterCall base 0 count st₄ = .ok u₃ st₅)
    (hback : emitLoop .iterLoop base st₅ = .ok back st₆)
    (hpatch : patchLoop back st₁.size st₆ = .ok u₄ st₇) (hbreaks : patchBreaks b st₇ = .ok u st')
    (hes : ∀ n ∈ es, n < st.size) (hlt : st.level < 256) (hbase : base + 3 = st.level)
    (hhides : (Note.full st.current.locals).Hides base)
    (hcount : count ≠ 0) (hcount' : count < 256)
    (hsplits : ∀ t, st₁.size ≤ t → t < st₂.size → (ν₂ t).Splits (base + 2)) :
    ∃ ν', Crosses places ν es st st' ν' := by
  have h₃ := setLine_crosses hline h₂.crosses.charted
  have h₃' : Crosses [] ν₂ (st.size :: (b.breaks ++ es)) st₂ st₃ ν₂ := h₃.congr fun m => by
    simp only [List.mem_append, List.mem_cons, or_left_comm]
  obtain ⟨h₄, hsize₄, henters₄⟩ :=
    patchHere_crosses henter h₃'.charted ((hpending.crosses h₂.crosses).crosses h₃)
  have hsince₄ := (h₂.crosses.followed h₃').followed h₄
  have hlocals₄ : st₄.current.locals = st.current.locals := hsince₄.locals.trans h₁.locals
  have hlevel₄ : st₄.level = st.level := congrArg Array.size hlocals₄
  obtain ⟨n, hcall⟩ := emitAbc_ok hcall
  have hac : (Instruction.abc .iterCall base 0 count).a = base := Instruction.a_abc _ (by omega)
  obtain ⟨rfl, hsize₅, hi₅, ν₅, h₅, hhere₅⟩ := emitState_crosses hcall h₄.charted
    (Instruction.opcode?_abc _) (.inr (.inr (.inl rfl))) (by rw [hac, hlevel₄]; exact hbase)
    (by rw [hac, hlocals₄]; exact hhides)
  have hlocals₅ : st₅.current.locals = st.current.locals := h₅.locals.trans hlocals₄
  have hlevel₅ : st₅.level = st.level := congrArg Array.size hlocals₅
  have hal : (Instruction.asbx .iterLoop base 0).a = base := Instruction.a_asbx _ (by omega) 0
  obtain ⟨rfl, hsize₆, hi₆, ν₆, h₆, hhere₆⟩ := emitState_crosses hback h₅.charted
    (Instruction.opcode?_asbx _ 0) (.inr (.inr (.inr rfl))) (by rw [hal, hlevel₅]; exact hbase)
    (by rw [hal, hlocals₅]; exact hhides)
  obtain ⟨h₇, hsize₇, hloop₇, hsame⟩ := patchLoop_crosses hpatch h₆.charted List.mem_cons_self hi₆
    (Instruction.opcode?_asbx _ 0) rfl
  rw [hal] at hloop₇
  have hcall₇ := (h₆.followed h₇).onward.retains.word hi₅ (Instruction.opcode?_abc _) rfl
  have henters : st₇.current.proto.HasJump st.size st₄.size := by
    have happ₅ := emit_appends hcall h₄.charted.alive
    have happ₆ := emit_appends hback h₅.charted.alive
    have hle := h₂.crosses.size
    have hle₃ := h₃.size
    obtain ⟨i, hi, hjump⟩ := henters₄
    refine ⟨i, ?_, hsize₄ ▸ hjump⟩
    rw [hsame _ (by omega), happ₆.1.code _ (by omega) List.not_mem_nil,
      happ₅.1.code _ (by omega) List.not_mem_nil]
    exact hi
  have hwords := h₃'.followed (h₄.followed (h₅.followed (h₆.followed h₇)))
  have hsince := h₂.crosses.followed hwords
  have hlast := h₅.followed (h₆.followed h₇)
  have hlocals₇ : st₇.current.locals = st.current.locals := hlast.locals.trans hlocals₄
  obtain ⟨hcalm, hadmits⟩ := hsince.back h₁.charted
  have hle : st₁.size ≤ st₄.size := hsince₄.size
  have hend : st₇.size = st₅.size + 1 := by omega
  -- the variables around the block are in use at its words
  have hnote : ν₆ st₄.size = ν₂ st₄.size :=
    ((h₆.followed h₇).onward.notes _ (show st₄.size < st₅.size by omega)).trans hhere₅
  obtain ⟨hlive₄, hbusy₄⟩ := h₄.charted.uses hlocals₄ hnote
  obtain ⟨hlive₅, hbusy₅⟩ := h₅.charted.uses hlocals₅ hhere₆
  obtain ⟨hlive₇, -⟩ := h₇.charted.uses hlocals₇ rfl
  have hsettled : ∀ free, st₇.current.proto.Settled ν₆ free st₅.size := fun free =>
    hsince.settlesBack h₁.charted hloop₇ (.inr rfl) hend
      (h₅.charted.uses (hlocals₅.trans h₁.locals.symm) hhere₆)
  have hfixed : ¬st₇.current.Free (b.breaks ++ es) st.size := by
    rintro (hmem | ⟨b', hb', hwaits⟩)
    · rcases List.mem_append.mp hmem with hmem | hmem
      · have hge := hinside _ hmem
        omega
      · exact Nat.lt_irrefl _ (hes _ hmem)
    · obtain ⟨hgotos, hbreak⟩ := hidle.gains hsince.gains (by omega) b' hb'
      rcases hwaits with ⟨g, hg, heq⟩ | hwaits
      · exact hgotos g hg heq
      · exact hbreak hwaits
  have hfixed' : ¬st₇.current.Free (b.breaks ++ es) st₅.size :=
    h₂.not_free hwords h₇.charted.toCharting
      (opcodeAt?_eq_some_iff.mpr (hloop₇.imp fun _ h => ⟨h.1, h.2.1⟩)) (by simp) fun hmem => by
        have hlt' := hes _ hmem
        omega
  have hsettled' : st₇.current.proto.Settled ν₆ (st₇.current.Free (b.breaks ++ es)) st₄.size := by
    refine settled_word hcall₇ (Instruction.opcode?_abc _) (by simp) (by simp [Instruction.targets])
      (fun _ _ l hl _ => ?_) (leaves_of_busy hcall₇ (Instruction.opcode?_abc _) (by simp) hbusy₄)
      (by simp) fun _ => ?_
    · rw [← hsize₅]
      exact .inl ⟨show st₅.size < st₇.size by omega, .inl ((hlive₅ l).mpr ((hlive₄ l).mp hl))⟩
    · intro i hi _
      cases hcall₇.symm.trans hi
      obtain ⟨j, hj, hjop, hja, hjtarget⟩ := hloop₇
      refine ⟨st.size, j, by omega, hfixed, hsize₅ ▸ hfixed', henters, hsize₅ ▸ hj, hjop,
        hja.trans hac.symm, by omega, fun t ht hle' r l hl => hsince.within h₄.charted
          (hlocals₄.trans h₁.locals.symm) hnote (by omega) (by omega) hl, ?_, fun t ht hlt => ?_⟩
      · rwa [Instruction.c_abc _ hcount']
      · have hlt' : t < st₂.size := by
          rwa [hsize₄, State.size, (setLine_charted hline h₂.crosses.charted).1] at hlt
        rw [hwords.onward.notes t hlt', hac]
        exact hsplits t (by omega) hlt'
  exact ⟨ν₆, h₁.after (h₂.leaves ((hwords.settle (hsettled _)).settle hsettled') hbreaks)⟩

/-- Room for the call of the iterator. -/
theorem straight_ensureRegisters {count : Int}
    (h : onScope' (fun s => s.ensureRegisters count line) st = .ok u st')
    (hs : Sound Prototype.WellFormed ps st) :
    Straight ps st st' st.top none ∧ st'.size = st.size := by
  have hsize : st'.size = st.size := by
    obtain ⟨s, hensure, rfl⟩ := onScope'_ok h
    obtain ⟨rfl, -⟩ := ensureRegisters_ok hensure
    unfold State.size
    rw [State.current_mapCurrent hs.exists_scope]
  exact ⟨.silent ⟨(ensureRegisters_step h hs).1, fun _ _ _ => trivial⟩ hsize, hsize⟩

theorem charts_genericFor {bs : List Binder} {iterators : List Expr} (line : Nat)
    (hbody : ChartsBlock .loop body) : Charts (.genericFor bs iterators body line) := by
  intro env st st' u ν es hready hc hclean hes hregular hfair h
  obtain ⟨ps, hs⟩ := hready.sound
  have happends := (carries (.genericFor bs iterators body line) rfl _ _ _ hready h).1
  rw [ofStmt] at hfair ⊢
  rw [Sites.stmt] at hregular
  have hinner : ∀ s ∈ Sites.stmts (env.counting.loop.declare bs) body, s.Regular :=
    fun s hs => hregular s (List.mem_cons_of_mem _ (List.mem_append_right _ hs))
  have hnames : bs ≠ [] := hregular (.variables bs) List.mem_cons_self
  rw [statement] at h
  simp only [bind_ok, here_ok, free_ok, pure_ok, and_assoc, exists_and_left, exists_eq_left] at h
  obtain ⟨_, st₁, hline, _, st₂, hbegin, count, st₃, hlist, _, st₄, hstate, _, st₅, hline₂, enter,
    st₆, henter, _, st₇, hbegin', r, st₈, hreserve, _, st₉, hensure, _, st₁₀, hbinders, _, st₁₁,
    hrun, loop, st₁₂, hclose, _, st₁₃, hline₃, _, st₁₄, hpatch, _, st₁₅, hcall, back, st₁₆, hback,
    _, st₁₇, hpatch', _, st₁₈, hbreaks, block, st₁₉, hclose', -, rfl⟩ := h
  have h₁ := setLine_crosses hline hc
  have hready₁ := hready.step (setLine_step hline hs)
  have hes₁ : ∀ n ∈ es, n < st₁.size := fun n hn => Nat.lt_of_lt_of_le (hes n hn) h₁.size
  obtain ⟨ps₁, hs₁⟩ := hready₁.sound
  obtain ⟨-, htop₂, hlevel₂, -⟩ := beginBlock_sound hbegin hs₁
  have htop₁ := hready₁.top
  obtain ⟨ν₅, h₅⟩ := counting_of_state hbegin (fun ps hs => by
    obtain ⟨t, h₃, -, -, hwanted⟩ := straight_adjusted hlist hs
    rw [rowList?_some] at h₃
    exact h₃.cast (hwanted 3 rfl)) hstate hline₂ hready₁ h₁.charted
  have hlevel₅ := h₅.level
  obtain ⟨ps₅, hs₅⟩ := h₅.ready.sound
  have hbase : st₂.top = st₁.level := by omega
  have hmove₆ := (emitJump_moves henter hs₅).1
  obtain ⟨rfl, hsize₆, ν₆, h₆, hpending₆⟩ := emitJump_crosses henter h₅.charted
  have hready₆ := h₅.readyAgain hmove₆ h₆
  have hidle₆ : ScopeBlock.Idle st₅.size st₆.current.blocks := by
    obtain ⟨-, -, -, hblocks, -⟩ := emitJump_charted henter h₅.charted
    rw [hblocks]
    exact idle_of_le hs₅ (Nat.le_refl _)
  obtain ⟨hready₁₀, happ₁₀, hsize₁₀, hgotos₁₀, houtline₁₀, hlevel₁₀, hfirst, ν₁₀, hc₁₀, honward₁₀⟩ :=
    loopVariables_charted _ hbegin' hreserve (fun ps hs => straight_ensureRegisters hensure hs) hbinders
      hready₆ h₆.charted
  have hes₅ : ∀ n ∈ es, n < st₅.size := fun n hn =>
    Nat.lt_of_lt_of_le (hes₁ n hn) h₅.onward.retains.size
  obtain ⟨ν₁₂, h₁₂, hwithin₁₂⟩ := hbody.closes (by simp) hbegin' hready₆.alive hready₁₀
    happ₁₀ h₆.charted.toCharting (h₆.clean h₅.charted.toCharting (h₅.clean h₁.charted.toCharting
      (h₁.clean hc.toCharting hclean))) hc₁₀ honward₁₀ hgotos₁₀ houtline₁₀ (by omega) (fun n hn => by
      rw [hsize₁₀, hsize₆]
      rcases List.mem_cons.mp hn with rfl | hn
      · exact Nat.lt_succ_self _
      · exact Nat.lt_succ_of_lt (hes₅ n hn)) hinner hfair hrun hclose
  obtain ⟨ps₁₀, hs₁₀⟩ := hready₁₀.sound
  have hlt₁₀ := hs₁₀.level_lt
  have hfill := filling true body _ _ _ hready₁₀ hrun
  have hinside := (encloses (.refl hready₆.alive) hbegin' happ₁₀ hfill (.refl hfill.alive) hclose).breaks
  have hstart : st₁₀.current.proto.chunk.size = st₆.size := hsize₁₀
  rw [hstart] at hpatch'
  obtain ⟨ν', h'⟩ := iteratingWords_crosses h₆ hpending₆ hsize₆ hidle₆ h₁₂ hinside hline₃
    hpatch hcall hback hpatch' hbreaks hes₅ hs₅.level_lt (by omega) (by rw [hbase]; exact h₅.hides)
    (fun hzero => hnames (List.length_eq_zero_iff.mp hzero)) (by omega)
    fun t ht hlt => by
      rw [hbase]
      exact (h₅.splits h₆ hsize₆ (hfirst hnames) hc₁₀ honward₁₀).mono (hwithin₁₂ t (hsize₁₀ ▸ ht) hlt)
  obtain ⟨ν'', h''⟩ := h₅.concludes h' hs₅.level_lt hclose'
    (by rw [State.size, (setLine_charted hline hc).1]; exact happends.blocks)
  exact ⟨ν'', (h₁.after h'').toPasses⟩

end Generator
end LuaMachine
