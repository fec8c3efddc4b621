import LuaMachine.Proofs.Generator.Control
import LuaMachine.Proofs.Structured.Names
/-! # Where the words of statements lie

What compiling a statement leaves as it was: words that were written before stay, unless they are
jumps that it finishes itself, and of the open loops only the innermost one gets jumps that leave it.

* `Generator.State.loops`: the jumps that leave the open loops.
* `Generator.Lays`: words are added, and jumps that leave the innermost loop.
* `Generator.Patches`: words are finished.
* `Generator.Closes`: what the end of a block adds.
-/
set_option autoImplicit false

namespace LuaMachine
namespace Generator

/-- The jumps that leave each of the open loops, the innermost loop first. -/
def State.loops (st : State) : List (List Nat) :=
  (st.current.blocks.filter fun b => b.isLoop).map fun b => b.breaks

/-- The jumps that leave the innermost loop. -/
def State.breaks (st : State) : List Nat := st.loops.headD []

/-- Words are added, and jumps among them that leave the innermost loop. -/
structure Lays (st st' : State) : Prop where
  grows : st.current.proto.Grows st'.current.proto
  code : ∀ n < st.size, st'.current.proto.chunk.code[n]? = st.current.proto.chunk.code[n]?
  loops : ∃ more, (∀ n ∈ more, st.size ≤ n) ∧ st'.loops = st.loops.modifyHead (· ++ more)

variable {Good : Prototype → Prop} {ps ps' : List Nat} {st st' st'' st₀ st₁ : State} {u : Unit}
  {t n line : Nat}

/-! ## Words that are added -/

namespace Lays

/-- The open loops are as they were. -/
theorem of_loops (hg : st.current.proto.Grows st'.current.proto)
    (hcode : ∀ n < st.size, st'.current.proto.chunk.code[n]? = st.current.proto.chunk.code[n]?)
    (hloops : st'.loops = st.loops) : Lays st st' := by
  refine ⟨hg, hcode, [], by simp, ?_⟩
  rw [hloops]
  cases st.loops with
  | nil => rfl
  | cons b bs => simp

theorem of_adds (h : st.current.Adds st'.current) : Lays st st' :=
  of_loops h.grows h.code (by rw [State.loops, State.loops, h.blocks])

theorem of_step (h : Step Good ps st st' t) : Lays st st' := .of_adds h.keeps.current.toAdds

theorem refl (st : State) : Lays st st := .of_adds (FunctionScope.Keeps.refl _).toAdds

theorem size_le (h : Lays st st') : st.size ≤ st'.size := h.grows.size

theorem trans (h : Lays st st') (h' : Lays st' st'') : Lays st st'' where
  grows := h.grows.trans h'.grows
  code n hn := (h'.code n (Nat.lt_of_lt_of_le hn h.size_le)).trans (h.code n hn)
  loops := by
    obtain ⟨more, hmore, hloops⟩ := h.loops
    obtain ⟨more', hmore', hloops'⟩ := h'.loops
    refine ⟨more ++ more', fun n hn => ?_, ?_⟩
    · rcases List.mem_append.mp hn with hn | hn
      · exact hmore n hn
      · exact Nat.le_trans h.size_le (hmore' n hn)
    · rw [hloops', hloops]
      cases st.loops with
      | nil => rfl
      | cons b bs => simp

theorem loops_ne_nil (h : Lays st st') (hne : st'.loops ≠ []) : st.loops ≠ [] := by
  obtain ⟨more, -, hloops⟩ := h.loops
  rintro hnil
  rw [hloops, hnil] at hne
  exact hne rfl

theorem mem_breaks (h : Lays st st') (hn : n ∈ st.breaks) : n ∈ st'.breaks := by
  obtain ⟨more, -, hloops⟩ := h.loops
  rw [State.breaks] at hn ⊢
  rw [hloops]
  cases hl : st.loops with
  | nil => simp [hl] at hn
  | cons b bs =>
    rw [hl] at hn
    exact List.mem_append_left more hn

theorem breaks_cases (h : Lays st st') (hn : n ∈ st'.breaks) : n ∈ st.breaks ∨ st.size ≤ n := by
  obtain ⟨more, hmore, hloops⟩ := h.loops
  rw [State.breaks] at hn ⊢
  rw [hloops] at hn
  cases hl : st.loops with
  | nil => simp [hl] at hn
  | cons b bs =>
    rw [hl] at hn
    exact (List.mem_append.mp hn).imp_right (hmore n)

end Lays

theorem breaks_of_adds (h : st.current.Adds st'.current) : st'.breaks = st.breaks := by
  rw [State.breaks, State.breaks, State.loops, State.loops, h.blocks]

theorem Step.breaks (h : Step Good ps st st' t) : st'.breaks = st.breaks :=
  breaks_of_adds h.keeps.current.toAdds

theorem emitAbc_adds {op : Opcode} {a b c : Nat} (h : emitAbc op a b c st = .ok u st')
    (hs : Sound Good ps st) : st.current.Adds st'.current := by
  obtain ⟨n, h⟩ := emitAbc_ok h
  exact emit_adds h hs

theorem breaks_jump (hs : Sound Good ps st) (hn : n ∈ st.breaks) :
    st.current.proto.opcodeAt? n = some .jump := by
  rw [State.breaks, State.loops] at hn
  cases hl : st.current.blocks.filter fun b => b.isLoop with
  | nil => simp [hl] at hn
  | cons b bs =>
    rw [hl] at hn
    have hmem : b ∈ st.current.blocks := List.mem_of_mem_filter (hl ▸ List.mem_cons_self)
    exact (hs.current.blocks b hmem).1.breaks n hn

theorem breaks_lt (hs : Sound Good ps st) (hn : n ∈ st.breaks) : n < st.size := by
  obtain ⟨i, hi, -⟩ := Prototype.opcodeAt?_eq_some_iff.mp (breaks_jump hs hn)
  exact Prototype.lt_size_of_word hi

/-- A word is none of the jumps that leave a loop unless it was recorded as one. -/
theorem Lays.not_mem_breaks (h : Lays st₁ st') (hs : Sound Good ps st)
    (hbreaks : st₁.breaks = st.breaks) (hle : st.size ≤ n) (hlt : n < st₁.size) :
    n ∉ st'.breaks := by
  intro hn
  rcases h.breaks_cases hn with hn | hn
  · have hlt' := breaks_lt hs (hbreaks ▸ hn)
    omega
  · omega

/-! ## Words that are finished -/

/-- Only the words at some positions are changed. -/
structure Patches (ns : List Nat) (st st' : State) : Prop where
  size : st'.size = st.size
  locals : st'.current.locals = st.current.locals
  blocks : st'.current.blocks = st.current.blocks
  constants : st'.current.proto.chunk.constants = st.current.proto.chunk.constants
  registers : st'.current.proto.registers = st.current.proto.registers
  other : ∀ n, n ∉ ns → st'.current.proto.chunk.code[n]? = st.current.proto.chunk.code[n]?

/-- The word is a jump to the target. -/
def State.JumpsTo (st : State) (n t : Nat) : Prop :=
  ∃ i, st.current.proto.chunk.code[n]? = some i ∧ i.opcode? = some .jump ∧
    (n : Int) + 1 + i.signedAx = t

namespace Patches

variable {ns ns' : List Nat}

theorem refl (st : State) : Patches [] st st := ⟨rfl, rfl, rfl, rfl, rfl, fun _ _ => rfl⟩

theorem trans (h : Patches ns st st') (h' : Patches ns' st' st'') : Patches (ns ++ ns') st st'' where
  size := h'.size.trans h.size
  locals := h'.locals.trans h.locals
  blocks := h'.blocks.trans h.blocks
  constants := h'.constants.trans h.constants
  registers := h'.registers.trans h.registers
  other n hn := by
    rw [List.mem_append, not_or] at hn
    exact (h'.other n hn.2).trans (h.other n hn.1)

theorem loops (h : Patches ns st st') : st'.loops = st.loops := by
  rw [State.loops, State.loops, h.blocks]

theorem breaks (h : Patches ns st st') : st'.breaks = st.breaks := by
  rw [State.breaks, State.breaks, h.loops]

/-- What was laid may be finished. -/
theorem lays (h : Patches ns st st') (hl : Lays st₀ st)
    (hg : st.current.proto.Grows st'.current.proto) (hns : ∀ n ∈ ns, st₀.size ≤ n) :
    Lays st₀ st' where
  grows := hl.grows.trans hg
  code n hn := (h.other n fun hmem => Nat.not_lt_of_le (hns n hmem) hn).trans (hl.code n hn)
  loops := h.loops ▸ hl.loops

end Patches

section Patching

variable {limit : Nat} {f : Instruction → Int → Instruction} {i : Instruction} {ns : List Nat}

theorem patchWithin_patches (h : patchWithin limit n t f st = .ok u st')
    (hs : Sound Good ps st) : Patches [n] st st' := by
  obtain ⟨-, rfl⟩ := patchWithin_ok h
  have hcurrent := State.current_mapCurrent
    (f := fun s => s.patched n fun i => f i (distance n t)) hs.exists_scope
  refine ⟨?_, ?_, ?_, ?_, ?_, fun j hj => ?_⟩
  · rw [State.size, hcurrent, FunctionScope.size_patched]
  · rw [hcurrent]
    rfl
  · rw [hcurrent]
    rfl
  · rw [hcurrent]
    rfl
  · rw [hcurrent]
    rfl
  · rw [hcurrent, FunctionScope.code_patched_ne (by simpa using hj)]

theorem patchWithin_word (h : patchWithin limit n t f st = .ok u st') (hs : Sound Good ps st)
    (hi : st.current.proto.chunk.code[n]? = some i) :
    st'.current.proto.chunk.code[n]? = some (f i (distance n t)) := by
  obtain ⟨-, rfl⟩ := patchWithin_ok h
  rw [State.current_mapCurrent hs.exists_scope, FunctionScope.code_patched hi]

theorem patchJump_jumpsTo (h : patchJump n t st = .ok u st') (hs : Sound Good ps st)
    (hop : st.current.proto.opcodeAt? n = some .jump) : st'.JumpsTo n t := by
  obtain ⟨i, hi, hjump⟩ := Prototype.opcodeAt?_eq_some_iff.mp hop
  have hword := patchWithin_word h hs hi
  obtain ⟨hd, -⟩ := patchWithin_ok h
  refine ⟨_, hword, (Instruction.opcode?_withSignedAx i).trans hjump, ?_⟩
  rw [Instruction.signedAx_withSignedAx i hd, distance]
  omega

/-- All of the jumps go to the next word. -/
theorem patchAllHere_patches (h : ns.forM patchJumpHere st = .ok u st') (hs : Sound Good ps st)
    (hns : ∀ n ∈ ns, st.current.proto.opcodeAt? n = some .jump) :
    Patches ns st st' ∧ ∀ n ∈ ns, st'.JumpsTo n st'.size := by
  induction ns generalizing st with
  | nil =>
    simp only [List.forM_eq_forM, List.forM_nil, pure_ok] at h
    obtain ⟨-, rfl⟩ := h
    exact ⟨.refl _, by simp⟩
  | cons n ns ih =>
    obtain ⟨st₁, hn, h⟩ := forM_ok h
    have hmove := patchJumpHere_moves hn hs (hns n List.mem_cons_self)
    have hpatch := patchWithin_patches (patchJumpHere_ok hn) hs
    have hjump := patchJump_jumpsTo (patchJumpHere_ok hn) hs (hns n List.mem_cons_self)
    obtain ⟨hrest, hjumps⟩ := ih h hmove.sound fun j hj =>
      hmove.grows.opcodeAt? (hns j (List.mem_cons_of_mem n hj))
    refine ⟨hpatch.trans hrest, fun j hj => ?_⟩
    by_cases hmem : j ∈ ns
    · exact hjumps j hmem
    · obtain rfl : j = n := (List.mem_cons.mp hj).resolve_right hmem
      obtain ⟨i, hi, hop, ht⟩ := hjump
      have hsize : st'.size = st.current.proto.chunk.size := (hrest.size.trans hpatch.size)
      exact ⟨i, (hrest.other j hmem).trans hi, hop, by rw [hsize]; exact ht⟩

/-- A jump back is written and finished at once. -/
theorem jumpBack_lays (h : jumpBack t st = .ok u st') (hs : Sound Good ps st)
    (ht : st.current.proto.Landing t) :
    Lays st st' ∧ st'.size = st.size + 1 ∧ st'.current.locals = st.current.locals ∧
      st'.breaks = st.breaks ∧ st'.JumpsTo st.size t := by
  have hmove := jumpBack_moves h hs ht
  simp only [jumpBack, bind_ok] at h
  obtain ⟨n, st₁, hjump, h⟩ := h
  obtain ⟨hmove₁, hop⟩ := emitJump_moves hjump hs
  obtain ⟨rfl, -, hsize⟩ := emit_word hjump hs
  have hadds := emit_adds hjump hs
  have hpatch := patchWithin_patches h hmove₁.sound
  have hgrow := (patchJump_moves h hmove₁.sound hop (hmove₁.grows.landing ht)).grows
  exact ⟨hpatch.lays (.of_adds hadds) hgrow (by simp), hpatch.size.trans hsize,
    hpatch.locals.trans hadds.locals, hpatch.breaks.trans (breaks_of_adds hadds),
    patchJump_jumpsTo h hmove₁.sound hop⟩

end Patching

/-! ## Variables and blocks -/

theorem addLocal_lays {name : String} {captured constant : Bool}
    (h : addLocal name captured constant st = .ok u st') (hs : Sound Good ps st) : Lays st st' := by
  obtain ⟨s, hadd, rfl⟩ := onScope'_ok h
  obtain ⟨-, rfl⟩ := addLocal_ok hadd
  have hcurrent := State.current_mapCurrent (f := fun _ => { st.current with
    locals := st.current.locals.push
      ⟨name, st.current.locals.size, captured, constant, st.current.position⟩
    blocks := st.current.blocks.modifyHead fun b =>
      { b with hasCaptured := b.hasCaptured || captured } }) hs.exists_scope
  refine .of_loops (by rw [hcurrent]; exact .refl _) (fun n _ => by rw [hcurrent]) ?_
  rw [State.loops, State.loops, hcurrent]
  cases st.current.blocks with
  | nil => rfl
  | cons b bs => cases hb : b.isLoop <;> simp [hb]

theorem addBinder_lays {b : Binder} (h : addBinder b st = .ok u st') (hs : Sound Good ps st) :
    Lays st st' := by
  simp only [addBinder, bind_ok, get_ok, and_assoc, exists_and_left, exists_eq_left] at h
  exact addLocal_lays h hs

theorem addBinders_lays {bs : List Binder} (h : bs.forM addBinder st = .ok u st')
    (hs : Sound Good ps st) : Lays st st' := by
  induction bs generalizing st with
  | nil =>
    simp only [List.forM_eq_forM, List.forM_nil, pure_ok] at h
    obtain ⟨-, rfl⟩ := h
    exact .refl _
  | cons b bs ih =>
    obtain ⟨st₁, hb, h⟩ := forM_ok h
    exact (addBinder_lays hb hs).trans (ih h (addBinder_moves hb hs).sound)

theorem addLoopState_lays (h : addLoopState st = .ok u st') (hs : Sound Good ps st) :
    Lays st st' := by
  simp only [addLoopState, bind_ok] at h
  obtain ⟨_, st₁, h₁, _, st₂, h₂, h₃⟩ := h
  have hmove₁ := addLocal_moves h₁ hs
  have hmove₂ := addLocal_moves h₂ hmove₁.sound
  exact ((addLocal_lays h₁ hs).trans (addLocal_lays h₂ hmove₁.sound)).trans
    (addLocal_lays h₃ hmove₂.sound)

theorem beginBlock_locals {isLoop : Bool} (h : beginBlock isLoop st = .ok u st')
    (hs : Sound Good ps st) :
    st'.current.locals = st.current.locals ∧ st'.current.proto = st.current.proto ∧
      st'.loops = if isLoop then [] :: st.loops else st.loops := by
  obtain rfl := beginBlock_ok h
  rw [State.loops, State.current_mapCurrent hs.exists_scope]
  refine ⟨rfl, rfl, ?_⟩
  cases isLoop <;> rfl

/-- A word that closes variables may be written. -/
structure ClosesAt (st st' : State) : Prop where
  adds : st.current.Adds st'.current
  word : st'.size = st.size ∨ st'.size = st.size + 1 ∧
    ∃ i, st'.current.proto.chunk.code[st.size]? = some i ∧ i.opcode? = some .close

theorem closeFrom_closesAt {level : Nat} (h : closeFrom level st = .ok u st')
    (hs : Sound Good ps st) : ClosesAt st st' := by
  obtain ⟨n, h⟩ := emitAbc_ok h
  obtain ⟨rfl, hword, hsize⟩ := emit_word h hs
  exact ⟨emit_adds h hs, .inr ⟨hsize, _, hword, Instruction.opcode?_abc _⟩⟩

theorem closeIf_closesAt {captured : Bool} {level : Nat} (h : closeIf captured level st = .ok u st')
    (hs : Sound Good ps st) : ClosesAt st st' := by
  simp only [closeIf] at h
  split at h
  · exact closeFrom_closesAt h hs
  · simp only [pure_ok] at h
    obtain ⟨-, rfl⟩ := h
    exact ⟨(FunctionScope.Keeps.refl _).toAdds, .inl rfl⟩

/-- The end of a block that began at the first state: its variables are gone, and if it is a loop,
so are the jumps that leave it. -/
structure Closes (isLoop : Bool) (breaks : List Nat) (st₀ st st' : State) : Prop where
  grows : st.current.proto.Grows st'.current.proto
  code : ∀ n < st.size, st'.current.proto.chunk.code[n]? = st.current.proto.chunk.code[n]?
  word : st'.size = st.size ∨ st'.size = st.size + 1 ∧
    ∃ i, st'.current.proto.chunk.code[st.size]? = some i ∧ i.opcode? = some .close
  locals : st'.current.locals = st₀.current.locals
  loops : st.loops = if isLoop then breaks :: st'.loops else st'.loops

theorem closeBlock_closes {isLoop : Bool} {b : ScopeBlock}
    (h₀ : beginBlock isLoop st₀ = .ok u st₁) (hs₀ : Sound Good ps' st₀) (he : Extends st₁ st)
    (hs : Sound Good ps st) (h : closeBlock st = .ok b st') : Closes isLoop b.breaks st₀ st st' := by
  have hgrow := (closeBlock_moves h₀ hs₀ he hs h).2.2
  simp only [closeBlock, bind_ok] at h
  obtain ⟨open', st₂, hblock, _, st₃, hclose, block, st₄, hend, h⟩ := h
  have hopen := currentBlock_sound hblock hs
  obtain ⟨rfl, -⟩ := currentBlock_ok hblock
  have hclose' := closeIf_moves hclose hs hopen.captured
  have hcloses := closeIf_closesAt hclose hs
  obtain rfl := beginBlock_ok h₀
  have hcurrent := (he.trans hclose'.extends').current
  rw [State.current_mapCurrent hs₀.exists_scope] at hcurrent
  obtain ⟨b', outer, hblocks, -, -, hlocals, -⟩ := hcurrent.endBlock
  have hkind : b'.isLoop = isLoop := by
    have hforall := hcurrent.blocks
    rw [hblocks] at hforall
    exact (List.forall₂_cons.mp hforall).1.2
  obtain ⟨rfl, hb⟩ := endBlock_ok hend
  obtain ⟨ranges, heq⟩ := FunctionScope.endBlock_eq hblocks
  have hended := State.current_mapCurrent (f := fun _ => st₃.current.endBlock.1)
    hclose'.sound.exists_scope
  -- the blocks around this one only get jumps to labels
  have hafter : b = block ∧ st'.current.proto = st₃.current.endBlock.1.proto ∧
      st'.current.locals = st₃.current.endBlock.1.locals ∧
      st'.loops = (outer.filter fun b => b.isLoop).map fun b => b.breaks := by
    have hend' := (endBlock_moves h₀ hs₀ (he.trans hclose'.extends') hclose'.sound hend).1
    simp only [scope_ok, and_assoc, exists_and_left, exists_eq_left] at h
    split at h
    · cases hgotos : block.gotos with
      | nil =>
        simp only [hgotos, pure_ok] at h
        obtain ⟨rfl, rfl⟩ := h
        refine ⟨rfl, by rw [hended], by rw [hended], ?_⟩
        rw [State.loops, hended, heq]
      | cons g gs => simp only [hgotos, defect_ok] at h
    · simp only [bind_ok, pure_ok] at h
      obtain ⟨_, st₅, hmodify, rfl, rfl⟩ := h
      simp only [modifyBlock, modifyScope_ok] at hmodify
      subst hmodify
      rw [State.loops, State.current_mapCurrent hend'.sound.exists_scope, hended, heq]
      refine ⟨rfl, rfl, rfl, ?_⟩
      cases outer with
      | nil => rfl
      | cons b bs => cases hb : b.isLoop <;> simp [hb]
  obtain ⟨rfl, hproto, hlocals', hloops⟩ := hafter
  rw [heq] at hb hproto
  obtain rfl : b = b' := hb
  have hchunk : st'.current.proto.chunk = st₃.current.proto.chunk := by rw [hproto]; rfl
  refine ⟨hgrow, fun n hn => ?_, ?_, hlocals'.trans hlocals, ?_⟩
  · rw [hchunk]
    exact hcloses.adds.code n hn
  · rw [State.size, hchunk]
    exact hcloses.word
  · rw [hloops, State.loops, ← hcloses.adds.blocks, hblocks]
    cases isLoop <;> simp [hkind]

/-- A block that is no loop adds words only. -/
theorem Closes.lays {breaks : List Nat} (h : Closes false breaks st₀ st st') (hl : Lays st₀ st) :
    Lays st₀ st' := hl.trans (.of_loops h.grows h.code h.loops.symm)

/-- The jumps that leave the loop are those of its block. -/
theorem Closes.breaks_eq {breaks : List Nat} (h : Closes true breaks st₀ st st') :
    st.breaks = breaks := by
  rw [State.breaks, h.loops]
  rfl

/-- The block of a loop adds words to the loops around it. -/
theorem Closes.loop_lays {breaks : List Nat} {st₂ : State}
    (h : Closes true breaks st₀ st₂ st') (hl : Lays st₁ st₂)
    (hloops : st₁.loops = [] :: st.loops) (hsize : st₁.size = st.size)
    (hproto : st₁.current.proto = st.current.proto) :
    Lays st st' ∧ st'.breaks = st.breaks ∧ ∀ n ∈ breaks, st.size ≤ n := by
  obtain ⟨more, hmore, hafter⟩ := hl.loops
  rw [hloops, h.loops] at hafter
  simp only [if_true, List.modifyHead_cons, List.nil_append, List.cons.injEq] at hafter
  obtain ⟨rfl, hloops'⟩ := hafter
  have hle := hl.size_le
  refine ⟨.of_loops (hproto ▸ hl.grows.trans h.grows) (fun n hn => ?_) hloops',
    congrArg (·.headD []) hloops', fun n hn => hsize ▸ hmore n hn⟩
  rw [h.code n (by omega), hl.code n (by omega), hproto]

/-! ## Leaving a loop -/

theorem loops_withBreak (n : Nat) (bs : List ScopeBlock) :
    (((withBreak n bs).filter fun b => b.isLoop).map fun b => b.breaks) =
      ((bs.filter fun b => b.isLoop).map fun b => b.breaks).modifyHead (· ++ [n]) := by
  induction bs with
  | nil => rfl
  | cons b bs ih =>
    unfold withBreak at ih ⊢
    cases hloop : b.isLoop with
    | true => simp [hloop]
    | false =>
      simp only [List.takeWhile_cons, hloop, Bool.not_false, if_true, List.length_cons,
        List.drop_succ_cons, List.cons_append, List.filter_cons, Bool.false_eq_true, if_false]
      exact ih

/-- The jump that leaves a loop is recorded. -/
theorem compileBreak_lays (h : compileBreak line st = .ok u st') (hs : Sound Good ps st) :
    st.loops ≠ [] ∧ Lays st st' ∧ ∃ st₂, ClosesAt st st₂ ∧ st'.breaks = st.breaks ++ [st₂.size] ∧
      ∀ n < st₂.size, st'.current.proto.chunk.code[n]? = st₂.current.proto.chunk.code[n]? := by
  simp only [compileBreak, bind_ok, scope_ok, and_assoc, exists_and_left, exists_eq_left] at h
  obtain ⟨_, st₁, hline, h⟩ := h
  have hstep₁ := setLine_step hline hs
  have hsize₁ := setLine_size hline
  have hmove₁ := hstep₁.moves
  cases hloop : st₁.current.innermostLoop with
  | none => simp only [hloop, defect_ok] at h
  | some loop =>
    simp only [hloop, bind_ok, scope_ok, modifyScope_ok, and_assoc, exists_and_left,
      exists_eq_left] at h
    obtain ⟨_, st₂, hclose, jump, st₃, hjump, rfl⟩ := h
    have hmove₂ := hmove₁.followed (closeIf_moves hclose hmove₁.sound fun hreach =>
      lt_of_reaches hreach fun r hr => highestCaptured_lt hmove₁.sound hr)
    have hcloses := closeIf_closesAt hclose hmove₁.sound
    have hcloses' : ClosesAt st st₂ :=
      ⟨hstep₁.keeps.current.toAdds.trans hcloses.adds, by
        have hword := hcloses.word
        rw [hsize₁] at hword
        exact hword⟩
    obtain ⟨rfl, -, -⟩ := emit_word hjump hmove₂.sound
    have hadds := hcloses'.adds.trans (emit_adds hjump hmove₂.sound)
    have hcurrent := State.current_mapCurrent
      (f := fun s => { s with blocks := withBreak st₂.current.proto.chunk.size s.blocks })
      (emitJump_moves hjump hmove₂.sound).1.sound.exists_scope
    have hne : st.loops ≠ [] := by
      have hmem := List.mem_of_find?_eq_some hloop
      have hkind := List.find?_some hloop
      rw [hstep₁.keeps.current.blocks] at hmem
      intro hnil
      have hfilter : (st.current.blocks.filter fun b => b.isLoop) = [] := by
        simpa [State.loops] using hnil
      exact absurd hkind (List.filter_eq_nil_iff.mp hfilter loop hmem)
    have hloops : (st₃.mapCurrent fun s =>
        { s with blocks := withBreak st₂.current.proto.chunk.size s.blocks }).loops =
        st.loops.modifyHead (· ++ [st₂.size]) := by
      rw [State.loops, hcurrent, loops_withBreak, hadds.blocks]
      rfl
    have hle : st.size ≤ st₂.size := hcloses'.adds.grows.size
    refine ⟨hne, ⟨?_, fun n hn => ?_, [st₂.size], by simpa using hle, hloops⟩, st₂, hcloses', ?_,
      fun n hn => ?_⟩
    · rw [hcurrent]
      exact hadds.grows
    · rw [hcurrent]
      exact hadds.code n hn
    · rw [State.breaks, State.breaks, hloops]
      cases hl : st.loops with
      | nil => exact absurd hl hne
      | cons b bs => rfl
    · rw [hcurrent]
      exact (emit_adds hjump hmove₂.sound).code n hn

end Generator
end LuaMachine
