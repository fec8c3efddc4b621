import LuaMachine.Proofs.Generator.Emitting
/-! # Variables, blocks and jumps

Declaring variables, opening and closing blocks, and the jumps between them.

* `Generator.Moves`: a sound state after some statements or parts of one.
* `addBinders_moves`: declared variables.
* `closeBlock_moves`: after a block its variables are gone, and all before it is as it was.
* `compileBreak_moves`, `compileGoto_moves`, `compileLabel_moves`: jumps and their labels.
-/
set_option autoImplicit false

namespace LuaMachine

/-! ## Blocks of a scope -/

/-- A block that changed in what it records only. -/
structure ScopeBlock.Updates (p : Prototype) (b b' : ScopeBlock) : Prop where
  level : b'.level = b.level
  isLoop : b'.isLoop = b.isLoop
  sound : b.Sound p → b'.Sound p

theorem ScopeBlock.Updates.refl (p : Prototype) (b : ScopeBlock) : b.Updates p b :=
  ⟨rfl, rfl, fun h => h⟩

namespace FunctionScope

variable {Good : Prototype → Prop} {ps : List Nat} {s s' : FunctionScope} {bs : List ScopeBlock}

theorem map_level_of_updates {p : Prototype} {as : List ScopeBlock}
    (h : List.Forall₂ (ScopeBlock.Updates p) as bs) :
    bs.map ScopeBlock.level = as.map ScopeBlock.level := by
  induction h with
  | nil => rfl
  | cons hb _ ih => rw [List.map_cons, List.map_cons, hb.level, ih]

theorem mem_of_updates {p : Prototype} {as : List ScopeBlock} {b : ScopeBlock}
    (h : List.Forall₂ (ScopeBlock.Updates p) as bs) (hb : b ∈ bs) : ∃ a ∈ as, a.Updates p b := by
  induction h with
  | nil => cases hb
  | cons hab _ ih =>
    rcases List.mem_cons.mp hb with rfl | hb
    · exact ⟨_, List.mem_cons_self .., hab⟩
    · obtain ⟨a, ha, hab⟩ := ih hb
      exact ⟨a, List.mem_cons_of_mem _ ha, hab⟩

theorem updates_modifyHead {p : Prototype} {as : List ScopeBlock} {f : ScopeBlock → ScopeBlock}
    (h : ∀ b, as.head? = some b → b.Updates p (f b)) :
    List.Forall₂ (ScopeBlock.Updates p) as (as.modifyHead f) := by
  cases as with
  | nil => exact .nil
  | cons b rest => exact .cons (h b rfl) (List.forall₂_same.mpr fun b _ => .refl p b)

theorem Sound.withBlocks (h : s.Sound Good ps)
    (hb : List.Forall₂ (ScopeBlock.Updates s.proto) s.blocks bs) :
    ({ s with blocks := bs } : FunctionScope).Sound Good ps where
  proto := h.proto
  settled := h.settled
  locals := h.locals
  level := h.level
  top := h.top
  blocks b hmem := by
    obtain ⟨a, ha, hab⟩ := mem_of_updates hb hmem
    exact ⟨hab.sound (h.blocks a ha).1, hab.level ▸ (h.blocks a ha).2⟩
  nested := by
    have hn := h.nested
    rw [← List.pairwise_map (f := ScopeBlock.level)
      (R := fun inner outer => outer ≤ inner)] at hn ⊢
    rw [map_level_of_updates hb]
    exact hn

theorem Extends.withBlocks (hb : List.Forall₂ (ScopeBlock.Updates s.proto) s.blocks bs) :
    s.Extends { s with blocks := bs } where
  grows := .refl _
  locals := (Extends.refl s).locals
  blocks := hb.imp fun _ _ h => ⟨h.level, h.isLoop⟩
  words := (Extends.refl s).words

end FunctionScope

namespace Generator

/-- A sound state after some statements or parts of one, with the numbers of registers in use and of
variables. -/
structure Moves (Good : Prototype → Prop) (ps : List Nat) (st st' : State) (top level : Nat) :
    Prop where
  sound : Sound Good ps st'
  extends' : Extends st st'
  top_eq : st'.top = top
  level_eq : st'.level = level

variable {Good : Prototype → Prop} {ps ps' : List Nat} {st st' st'' st₀ st₁ : State} {u : Unit}
  {t t' l l' n : Nat}

namespace Moves

theorem refl (h : Sound Good ps st) : Moves Good ps st st st.top st.level :=
  ⟨h, .refl st, rfl, rfl⟩

theorem trans (h : Moves Good ps st st' t l) (h' : Moves Good ps' st' st'' t' l') :
    Moves Good ps' st st'' t' l' :=
  ⟨h'.sound, h.extends'.trans h'.extends', h'.top_eq, h'.level_eq⟩

theorem cast (h : Moves Good ps st st' t l) (ht : t = t') (hl : l = l') :
    Moves Good ps st st' t' l' :=
  ⟨h.sound, h.extends', h.top_eq.trans ht, h.level_eq.trans hl⟩

/-- A further part after which as many registers and variables are in use as before it. -/
theorem followed (h : Moves Good ps st st' t l) (h' : Moves Good ps' st' st'' st'.top st'.level) :
    Moves Good ps' st st'' t l :=
  (h.trans h').cast h.top_eq h.level_eq

theorem grows (h : Moves Good ps st st' t l) : st.current.proto.Grows st'.current.proto :=
  h.extends'.current.grows

end Moves

theorem Step.moves (h : Step Good ps st st' t) : Moves Good ps st st' t st.level :=
  ⟨h.sound, h.keeps.extends, h.top_eq, h.level⟩

/-- Changing the records of the blocks. -/
theorem moves_withBlocks {f : FunctionScope → FunctionScope} {bs : List ScopeBlock}
    (hf : f st.current = { st.current with blocks := bs }) (hs : Sound Good ps st)
    (hb : List.Forall₂ (ScopeBlock.Updates st.current.proto) st.current.blocks bs) :
    Moves Good ps st (st.mapCurrent f) st.top st.level := by
  refine ⟨hs.mapCurrent ?_ (by rw [hf]), .mapCurrent hs.exists_scope ?_ (by rw [hf]), ?_, ?_⟩
  · rw [hf]
    exact hs.current.withBlocks hb
  · rw [hf]
    exact .withBlocks hb
  · unfold State.top
    rw [State.current_mapCurrent hs.exists_scope, hf]
  · unfold State.level
    rw [State.current_mapCurrent hs.exists_scope, hf]

theorem modifyBlock_moves {f : ScopeBlock → ScopeBlock} (h : modifyBlock f st = .ok u st')
    (hs : Sound Good ps st)
    (hf : ∀ b, st.current.blocks.head? = some b → b.Updates st.current.proto (f b)) :
    Moves Good ps st st' st.top st.level := by
  simp only [modifyBlock, modifyScope_ok] at h
  subst h
  exact moves_withBlocks rfl hs (FunctionScope.updates_modifyHead hf)

/-! ## Variables -/

theorem addLocal_ok {s s' : FunctionScope} {name : String} {captured constant : Bool}
    (h : s.addLocal name captured constant = .ok s') :
    (s.locals.size : Int) < s.free ∧ s' = { s with
      locals := s.locals.push ⟨name, s.locals.size, captured, constant, s.position⟩
      blocks := s.blocks.modifyHead fun b =>
        { b with hasCaptured := b.hasCaptured || captured } } := by
  unfold FunctionScope.addLocal FunctionScope.localsLevel at h
  by_cases hroom : s.free ≤ (s.locals.size : Int)
  · simp [hroom] at h
  · simp only [if_neg hroom, Except.ok.injEq] at h
    exact ⟨by omega, h.symm⟩

theorem addLocal_moves {name : String} {captured constant : Bool}
    (h : addLocal name captured constant st = .ok u st') (hs : Sound Good ps st) :
    Moves Good ps st st' st.top (st.level + 1) := by
  obtain ⟨s, hadd, rfl⟩ := onScope'_ok h
  obtain ⟨hroom, rfl⟩ := addLocal_ok hadd
  have hc := hs.current
  have hfree := hs.free_eq
  have htop := hs.top_le
  have hb : List.Forall₂ (ScopeBlock.Updates st.current.proto) st.current.blocks
      (st.current.blocks.modifyHead fun b =>
        { b with hasCaptured := b.hasCaptured || captured }) := by
    refine FunctionScope.updates_modifyHead fun b hb => ⟨rfl, rfl, fun h => ?_⟩
    have hlevel := (hc.blocks b (List.mem_of_head? hb)).2
    exact { h with captured := fun _ => by change b.level < _; omega }
  have hwith := hc.withBlocks hb
  refine ⟨hs.mapCurrent ?_ rfl, .mapCurrent hs.exists_scope ?_ rfl, ?_, ?_⟩
  · refine ⟨hc.proto, hc.settled, ?_, ?_, hc.top, ?_, hwith.nested⟩
    · intro m l hl
      rw [Array.getElem?_push] at hl
      split at hl
      next heq =>
        cases hl
        exact heq.symm
      next => exact hc.locals m l hl
    · simp only [Array.size_push]
      omega
    · intro b hmem
      simp only [Array.size_push]
      exact ⟨(hwith.blocks b hmem).1, Nat.le_succ_of_le (hwith.blocks b hmem).2⟩
  · exact ⟨.refl _, ⟨#[_], rfl⟩, (FunctionScope.Extends.withBlocks hb).blocks,
      (FunctionScope.Extends.refl st.current).words⟩
  · unfold State.top
    rw [State.current_mapCurrent hs.exists_scope]
  · unfold State.level
    rw [State.current_mapCurrent hs.exists_scope]
    simp

theorem addBinder_moves {b : Binder} (h : addBinder b st = .ok u st') (hs : Sound Good ps st) :
    Moves Good ps st st' st.top (st.level + 1) := by
  simp only [addBinder, bind_ok, get_ok, and_assoc, exists_and_left, exists_eq_left] at h
  exact addLocal_moves h hs

theorem addBinders_moves {bs : List Binder} (h : bs.forM addBinder st = .ok u st')
    (hs : Sound Good ps st) : Moves Good ps st st' st.top (st.level + bs.length) := by
  induction bs generalizing st with
  | nil =>
    simp only [List.forM_eq_forM, List.forM_nil, pure_ok] at h
    obtain ⟨-, rfl⟩ := h
    exact .refl hs
  | cons b bs ih =>
    obtain ⟨st₁, hb, h⟩ := forM_ok h
    have hmove := addBinder_moves hb hs
    have htop := hmove.top_eq
    have hlevel := hmove.level_eq
    refine (hmove.trans (ih h hmove.sound)).cast htop ?_
    simp only [List.length_cons]
    omega

theorem addLoopState_moves (h : addLoopState st = .ok u st') (hs : Sound Good ps st) :
    Moves Good ps st st' st.top (st.level + 3) := by
  simp only [addLoopState, bind_ok] at h
  obtain ⟨_, st₁, h₁, _, st₂, h₂, h₃⟩ := h
  have hmove₁ := addLocal_moves h₁ hs
  have hmove₂ := hmove₁.trans (addLocal_moves h₂ hmove₁.sound)
  have htop₁ := hmove₁.top_eq
  have htop₂ := hmove₂.top_eq
  have hlevel₁ := hmove₁.level_eq
  have hlevel₂ := hmove₂.level_eq
  exact (hmove₂.trans (addLocal_moves h₃ hmove₂.sound)).cast (by omega) (by omega)

/-! ## Jumps and closing variables -/

theorem emitJump_moves (h : emitJump st = .ok n st') (hs : Sound Good ps st) :
    Moves Good ps st st' st.top st.level ∧ st'.current.proto.opcodeAt? n = some .jump := by
  obtain ⟨hsound, hkeeps, htop, -, hop⟩ := emitJump_step h hs
  exact ⟨(⟨hsound, hkeeps, htop⟩ : Step Good ps st st' st.top).moves, hop⟩

theorem patchJump_moves (h : patchJump n t st = .ok u st') (hs : Sound Good ps st)
    (hn : st.current.proto.opcodeAt? n = some .jump) (ht : st.current.proto.Landing t) :
    Moves Good ps st st' st.top st.level := by
  refine ⟨patchJump_sound h hs hn ht, patchJump_extends h hs hn, patchJump_top h hs, ?_⟩
  obtain ⟨-, rfl⟩ := patchWithin_ok h
  unfold State.level
  rw [State.current_mapCurrent hs.exists_scope]
  rfl

theorem patchJumpHere_moves (h : patchJumpHere n st = .ok u st') (hs : Sound Good ps st)
    (hn : st.current.proto.opcodeAt? n = some .jump) : Moves Good ps st st' st.top st.level :=
  patchJump_moves (patchJumpHere_ok h) hs hn hs.current.settled

theorem patchAllHere_moves {ns : List Nat} (h : ns.forM patchJumpHere st = .ok u st')
    (hs : Sound Good ps st) (hns : ∀ n ∈ ns, st.current.proto.opcodeAt? n = some .jump) :
    Moves Good ps st st' st.top st.level := by
  induction ns generalizing st with
  | nil =>
    simp only [List.forM_eq_forM, List.forM_nil, pure_ok] at h
    obtain ⟨-, rfl⟩ := h
    exact .refl hs
  | cons n ns ih =>
    obtain ⟨st₁, hn, h⟩ := forM_ok h
    have hmove := patchJumpHere_moves hn hs (hns n (List.mem_cons_self ..))
    have hrest := ih h hmove.sound fun m hm =>
      hmove.grows.opcodeAt? (hns m (List.mem_cons_of_mem _ hm))
    exact hmove.followed hrest

theorem jumpBack_moves (h : jumpBack t st = .ok u st') (hs : Sound Good ps st)
    (ht : st.current.proto.Landing t) : Moves Good ps st st' st.top st.level := by
  simp only [jumpBack, bind_ok] at h
  obtain ⟨n, st₁, hjump, h⟩ := h
  obtain ⟨hmove, hop⟩ := emitJump_moves hjump hs
  exact hmove.followed (patchJump_moves h hmove.sound hop (hmove.grows.landing ht))

/-- A word that belongs to a statement and names registers only. -/
theorem emitStatement_moves {op : Opcode} {a b c : Nat} (h : emitAbc op a b c st = .ok u st')
    (hs : Sound Good ps st) (hop : op = .close ∨ op = .ret ∨ op = .iterCall) (ha : a < 256)
    (hb : b < 256) (hc : c < 256)
    (hruns : ∀ run ∈ op.runs a b c, run.2 = 0 ∨ run.1 + run.2 ≤ st.current.proto.registers) :
    Moves Good ps st st' st.top st.level := by
  obtain ⟨n, h⟩ := emitAbc_ok h
  have hopcode : (Instruction.abc op a b c).opcode? = some op := Instruction.opcode?_abc _
  have hfit : (Instruction.abc op a b c).FitsAt st'.current.proto
      st.current.proto.chunk.size op := by
    have hoperands : (Instruction.abc op a b c).OperandsFit st.current.proto op := by
      refine operandsFit_abc ⟨hruns, ?_, ?_⟩ ha hb hc ?_ ?_ <;>
        rcases hop with rfl | rfl | rfl <;> simp [Opcode.constant?, Opcode.upvalue?]
    refine ⟨(emit_grows h hs).operandsFit hoperands, ?_, ?_, ?_, ?_⟩ <;>
      rcases hop with rfl | rfl | rfl <;> simp [Instruction.targets]
  refine ⟨emit_sound h hs hopcode (by rcases hop with rfl | rfl | rfl <;> simp) hfit,
    emit_extends h hs, emit_top h hs, ?_⟩
  unfold State.level
  rw [(emit_adds h hs).locals]

theorem closeFrom_moves {level : Nat} (h : closeFrom level st = .ok u st') (hs : Sound Good ps st)
    (hlevel : level < st.current.proto.registers) : Moves Good ps st st' st.top st.level := by
  have hmax := hs.registers_le
  refine emitStatement_moves h hs (.inl rfl) (by omega) (by omega) (by omega) ?_
  simp only [Opcode.runs, List.mem_singleton]
  rintro run rfl
  exact .inr (by omega)

theorem closeIf_moves {captured : Bool} {level : Nat} (h : closeIf captured level st = .ok u st')
    (hs : Sound Good ps st) (hlevel : captured = true → level < st.current.proto.registers) :
    Moves Good ps st st' st.top st.level := by
  simp only [closeIf] at h
  split at h
  next hc => exact closeFrom_moves h hs (hlevel hc)
  next =>
    simp only [pure_ok] at h
    obtain ⟨-, rfl⟩ := h
    exact .refl hs

theorem highestCaptured_lt (hs : Sound Good ps st)
    (h : st.current.highestCaptured = some n) : n < st.current.proto.registers := by
  unfold FunctionScope.highestCaptured at h
  obtain ⟨l, hl, rfl⟩ := Option.map_eq_some_iff.mp h
  rw [Array.findRev?_eq_find?_reverse] at hl
  exact hs.current.local_lt (by simpa using Array.mem_of_find?_eq_some hl)

theorem lt_of_reaches {level m : Nat} {highest : Option Nat} (h : reaches level highest = true)
    (hm : ∀ r, highest = some r → r < m) : level < m := by
  cases highest with
  | none => cases h
  | some r =>
    have hle : level ≤ r := of_decide_eq_true h
    exact Nat.lt_of_le_of_lt hle (hm r rfl)

/-! ## Leaving a loop, jumping to a label -/

theorem updates_withBreak {p : Prototype} (hn : p.opcodeAt? n = some .jump)
    (bs : List ScopeBlock) : List.Forall₂ (ScopeBlock.Updates p) bs (withBreak n bs) := by
  induction bs with
  | nil => exact .nil
  | cons b bs ih =>
    unfold withBreak at ih ⊢
    cases hloop : b.isLoop with
    | true =>
      simp only [List.takeWhile_cons, hloop, Bool.not_true, Bool.false_eq_true, if_false,
        List.nil_append, List.length_nil, List.drop_zero, List.modifyHead_cons]
      refine .cons ⟨rfl, hloop.symm, fun h => ⟨h.captured, h.labels, h.gotos, fun m hm => ?_⟩⟩
        (List.forall₂_same.mpr fun b _ => .refl p b)
      rcases List.mem_append.mp hm with hm | hm
      · exact h.breaks m hm
      · rw [List.mem_singleton.mp hm]
        exact hn
    | false =>
      simp only [List.takeWhile_cons, hloop, Bool.not_false, if_true, List.length_cons,
        List.drop_succ_cons, List.cons_append]
      exact .cons (.refl p b) ih

theorem compileBreak_moves {line : Nat} (h : compileBreak line st = .ok u st')
    (hs : Sound Good ps st) : Moves Good ps st st' st.top st.level := by
  simp only [compileBreak, bind_ok, scope_ok, and_assoc, exists_and_left, exists_eq_left] at h
  obtain ⟨_, st₁, hline, h⟩ := h
  have hmove₁ := (setLine_step hline hs).moves
  cases hloop : st₁.current.innermostLoop with
  | none => simp only [hloop, defect_ok] at h
  | some loop =>
    simp only [hloop, bind_ok, scope_ok, modifyScope_ok, and_assoc, exists_and_left,
      exists_eq_left] at h
    obtain ⟨_, st₂, hclose, jump, st₃, hjump, rfl⟩ := h
    have hmove₂ := hmove₁.followed (closeIf_moves hclose hmove₁.sound fun hreach =>
      lt_of_reaches hreach fun r hr => highestCaptured_lt hmove₁.sound hr)
    obtain ⟨hmove₃, hop⟩ := emitJump_moves hjump hmove₂.sound
    exact (hmove₂.followed hmove₃).followed
      (moves_withBlocks rfl hmove₃.sound (updates_withBreak hop _))

theorem compileGoto_moves {name : String} {line : Nat} (h : compileGoto name line st = .ok u st')
    (hs : Sound Good ps st) : Moves Good ps st st' st.top st.level := by
  simp only [compileGoto, bind_ok, scope_ok, and_assoc, exists_and_left, exists_eq_left] at h
  obtain ⟨_, st₁, hline, h⟩ := h
  have hmove₁ := (setLine_step hline hs).moves
  cases hl : (st₁.current.blocks.flatMap fun b => b.labels).find? fun l => l.name == name with
  | some l =>
    simp only [hl, bind_ok] at h
    obtain ⟨_, st₂, hclose, h⟩ := h
    have hmove₂ := closeIf_moves hclose hmove₁.sound fun hreach =>
      lt_of_reaches hreach fun r hr => highestCaptured_lt hmove₁.sound hr
    obtain ⟨b, hb, hmem⟩ := List.mem_flatMap.mp (List.mem_of_find?_eq_some hl)
    have hland := (hmove₁.sound.current.blocks b hb).1.labels l hmem
    exact (hmove₁.followed hmove₂).followed
      (jumpBack_moves h hmove₂.sound (hmove₂.grows.landing hland))
  | none =>
    simp only [hl, bind_ok] at h
    obtain ⟨jump, st₂, hjump, h⟩ := h
    obtain ⟨hmove₂, hop⟩ := emitJump_moves hjump hmove₁.sound
    refine (hmove₁.followed hmove₂).followed
      (modifyBlock_moves h hmove₂.sound fun b _ => ⟨rfl, rfl, fun hb => ?_⟩)
    refine { hb with gotos := fun g hg => ?_ }
    rcases List.mem_append.mp hg with hg | hg
    · exact hb.gotos g hg
    · obtain rfl := List.mem_singleton.mp hg
      exact ⟨hop, fun r hr =>
        Nat.lt_of_lt_of_le (highestCaptured_lt hmove₁.sound hr) hmove₂.grows.registers⟩

theorem currentBlock_ok {b : ScopeBlock} (h : currentBlock st = .ok b st') :
    st' = st ∧ (st.current.blocks.head? = some b ∨ b = { level := 0, isLoop := false }) := by
  simp only [currentBlock, bind_ok, scope_ok, pure_ok, and_assoc, exists_and_left,
    exists_eq_left] at h
  obtain ⟨rfl, rfl⟩ := h
  refine ⟨rfl, ?_⟩
  cases st'.current.blocks with
  | nil => exact .inr rfl
  | cons b bs => exact .inl rfl

/-- The current block is sound; if there is none, it records nothing. -/
theorem currentBlock_sound {b : ScopeBlock} (h : currentBlock st = .ok b st')
    (hs : Sound Good ps st) : b.Sound st.current.proto := by
  obtain ⟨-, hb | rfl⟩ := currentBlock_ok h
  · exact (hs.current.blocks b (List.mem_of_head? hb)).1
  · exact ⟨by simp, by simp, by simp, by simp⟩

theorem patchGotos_moves {gs : List PendingJump}
    (h : (gs.forM fun g => patchJump g.position t) st = .ok u st') (hs : Sound Good ps st)
    (hgs : ∀ g ∈ gs, st.current.proto.opcodeAt? g.position = some .jump)
    (ht : st.current.proto.Landing t) : Moves Good ps st st' st.top st.level := by
  induction gs generalizing st with
  | nil =>
    simp only [List.forM_eq_forM, List.forM_nil, pure_ok] at h
    obtain ⟨-, rfl⟩ := h
    exact .refl hs
  | cons g gs ih =>
    obtain ⟨st₁, hg, h⟩ := forM_ok h
    have hmove := patchJump_moves hg hs (hgs g (List.mem_cons_self ..)) ht
    have hrest := ih h hmove.sound
      (fun m hm => hmove.grows.opcodeAt? (hgs m (List.mem_cons_of_mem _ hm)))
      (hmove.grows.landing ht)
    exact hmove.followed hrest

theorem compileLabel_moves {name : String} {line : Nat} {atEnd : Bool}
    (h : compileLabel name line atEnd st = .ok u st') (hs : Sound Good ps st) :
    Moves Good ps st st' st.top st.level := by
  simp only [compileLabel, bind_ok, scope_ok, here_ok, and_assoc, exists_and_left,
    exists_eq_left] at h
  obtain ⟨_, st₁, hline, block, st₂, hblock, _, st₃, hclose, _, st₄, hmodify, h⟩ := h
  have hmove₁ := (setLine_step hline hs).moves
  have hb := currentBlock_sound hblock hmove₁.sound
  obtain ⟨rfl, -⟩ := currentBlock_ok hblock
  have harriving : ∀ g ∈ block.gotos.filter fun g => g.name == name, g ∈ block.gotos :=
    fun g hg => List.mem_of_mem_filter hg
  have hclose' := closeIf_moves hclose hmove₁.sound fun hany => by
    obtain ⟨g, hg, hreach⟩ := List.any_eq_true.mp hany
    exact lt_of_reaches hreach (hb.gotos g (harriving g hg)).2
  have hland := hclose'.grows.landing hmove₁.sound.current.settled
  have hmodify' := modifyBlock_moves hmodify hclose'.sound fun b _ => ⟨rfl, rfl, fun hb' =>
    { hb' with
      labels := fun l hl => by
        rcases List.mem_append.mp hl with hl | hl
        · exact hb'.labels l hl
        · obtain rfl := List.mem_singleton.mp hl
          exact hland
      gotos := fun g hg => hb'.gotos g (List.mem_of_mem_filter hg) }⟩
  have hpatch := patchGotos_moves h hmodify'.sound
    (fun g hg => (hclose'.trans hmodify').grows.opcodeAt? (hb.gotos g (harriving g hg)).1)
    (hmodify'.grows.landing hland)
  exact ((hmove₁.followed hclose').followed hmodify').followed hpatch

end Generator

/-! ## Opening and closing blocks -/

namespace FunctionScope

variable {Good : Prototype → Prop} {ps : List Nat} {s s₀ : FunctionScope} {isLoop : Bool}
  {b : ScopeBlock} {outer : List ScopeBlock}

theorem Sound.beginBlock (h : s.Sound Good ps) (isLoop : Bool) :
    (s.beginBlock isLoop).Sound Good ps where
  proto := h.proto
  settled := h.settled
  locals := h.locals
  level := h.level
  top := h.top
  blocks b hb := by
    rcases List.mem_cons.mp hb with rfl | hb
    · exact ⟨⟨by simp, by simp, by simp, by simp⟩, Nat.le_refl _⟩
    · exact h.blocks b hb
  nested := List.pairwise_cons.mpr ⟨fun b hb => (h.blocks b hb).2, h.nested⟩

/-- The prototype with the ranges of some variables recorded. -/
def recorded (s : FunctionScope) (ranges : Array LocalRange) : Prototype :=
  { s.proto with locals := s.proto.locals ++ ranges }

theorem grows_recorded (s : FunctionScope) (ranges : Array LocalRange) :
    s.proto.Grows (s.recorded ranges) :=
  ⟨Nat.le_refl _, fun _ _ h => h, fun _ _ h => h, fun _ _ h => h, Nat.le_refl _, fun _ _ => rfl, rfl⟩

theorem endBlock_eq (h : s.blocks = b :: outer) :
    ∃ ranges, s.endBlock = ({ s with
      proto := s.recorded ranges
      locals := s.locals.extract 0 b.level
      blocks := outer
      free := b.level }, some b) := by
  unfold endBlock
  rw [h]
  exact ⟨_, rfl⟩

theorem Sound.endBlock (h : s.Sound Good ps) (hb : s.blocks = b :: outer) :
    s.endBlock.1.Sound Good ps := by
  obtain ⟨ranges, heq⟩ := endBlock_eq hb
  rw [heq]
  have hg := grows_recorded s ranges
  have hblock := h.blocks b (hb ▸ List.mem_cons_self ..)
  have hnested := h.nested
  rw [hb] at hnested
  obtain ⟨houter, hrest⟩ := List.pairwise_cons.mp hnested
  have hsize : (s.locals.extract 0 b.level).size = b.level := by
    rw [Array.size_extract, Nat.min_eq_left hblock.2]
    omega
  have hlevel := h.level
  have htop := h.top
  refine ⟨?_, hg.landing h.settled, ?_, ?_, ?_, ?_, hrest⟩
  · exact ⟨h.proto.registers, h.proto.constants, h.proto.places,
      h.proto.words_of_grows hg fun n i hi hn => .inl ⟨hi, hn⟩,
      fun q hq => h.proto.children_of_grows hg hq⟩
  · intro n l hl
    rw [Array.getElem?_extract] at hl
    split at hl
    · rw [Nat.zero_add] at hl
      exact h.locals n l hl
    · cases hl
  · change ((s.locals.extract 0 b.level).size : Int) ≤ b.level
    omega
  · change (b.level : Int) ≤ s.proto.registers
    have hle := hblock.2
    omega
  · intro b' hb'
    refine ⟨(h.blocks b' (hb ▸ List.mem_cons_of_mem _ hb')).1.grows hg, ?_⟩
    change b'.level ≤ (s.locals.extract 0 b.level).size
    rw [hsize]
    exact houter b' hb'

/-- What stands in a block leaves the scope around the block as it was. -/
theorem Extends.endBlock (h : (s₀.beginBlock isLoop).Extends s) :
    ∃ b outer, s.blocks = b :: outer ∧ b.level = s₀.locals.size ∧ s₀.Extends s.endBlock.1 ∧
      s.endBlock.1.locals = s₀.locals ∧ s.endBlock.1.blocks = outer := by
  have hblocks := h.blocks
  obtain ⟨more, hlocals⟩ := h.locals
  change s.locals = s₀.locals ++ more at hlocals
  change List.Forall₂ _ ({ level := s₀.localsLevel, isLoop := isLoop } :: s₀.blocks) _ at hblocks
  obtain ⟨b, outer, hhead, hrest, hb⟩ := List.forall₂_cons_left_iff.mp hblocks
  have hlevel : b.level = s₀.locals.size := hhead.1
  obtain ⟨ranges, heq⟩ := endBlock_eq hb
  have hextract : s.locals.extract 0 b.level = s₀.locals := by
    rw [hlocals, hlevel]
    simp
  refine ⟨b, outer, hb, hlevel, ?_, ?_, ?_⟩
  · rw [heq]
    refine ⟨h.grows.trans (grows_recorded s ranges), ⟨#[], ?_⟩, hrest, h.words⟩
    rw [Array.append_empty]
    exact hextract
  · rw [heq]
    exact hextract
  · rw [heq]

end FunctionScope

namespace Generator

variable {Good : Prototype → Prop} {ps ps' : List Nat} {st st' st'' st₀ st₁ : State} {u : Unit}
  {isLoop : Bool} {b : ScopeBlock} {n t : Nat}

theorem beginBlock_ok (h : beginBlock isLoop st = .ok u st') :
    st' = st.mapCurrent fun s => s.beginBlock isLoop := by
  simpa only [beginBlock, modifyScope_ok] using h

theorem beginBlock_sound (h : beginBlock isLoop st = .ok u st') (hs : Sound Good ps st) :
    Sound Good ps st' ∧ st'.top = st.top ∧ st'.level = st.level ∧
      st'.current.proto = st.current.proto := by
  obtain rfl := beginBlock_ok h
  refine ⟨hs.mapCurrent (hs.current.beginBlock isLoop) rfl, ?_, ?_, ?_⟩
  · unfold State.top
    rw [State.current_mapCurrent hs.exists_scope]
    rfl
  · unfold State.level
    rw [State.current_mapCurrent hs.exists_scope]
    rfl
  · rw [State.current_mapCurrent hs.exists_scope]
    rfl

theorem endBlock_ok (h : endBlock st = .ok b st') :
    st' = st.mapCurrent (fun _ => st.current.endBlock.1) ∧
      b = st.current.endBlock.2.getD { level := 0, isLoop := false } := by
  simp only [endBlock, bind_ok, scope_ok, modifyScope_ok, pure_ok, and_assoc, exists_and_left,
    exists_eq_left, exists_const] at h
  exact ⟨h.2, h.1⟩

/-- Ending a block gives back its registers and variables. -/
theorem endBlock_moves (h₀ : beginBlock isLoop st₀ = .ok u st₁) (hs₀ : Sound Good ps' st₀)
    (he : Extends st₁ st) (hs : Sound Good ps st) (h : endBlock st = .ok b st') :
    Moves Good ps st₀ st' st₀.level st₀.level ∧ b.Sound st'.current.proto ∧
      st.current.proto.Grows st'.current.proto := by
  obtain rfl := beginBlock_ok h₀
  obtain ⟨rfl, hb⟩ := endBlock_ok h
  have hcurrent := he.current
  have houter := he.outer
  rw [State.current_mapCurrent hs₀.exists_scope] at hcurrent
  rw [State.outer_mapCurrent] at houter
  obtain ⟨b', outer, hblocks, hlevel, hext, hlocals, -⟩ := hcurrent.endBlock
  obtain ⟨ranges, heq⟩ := FunctionScope.endBlock_eq hblocks
  have hup : st.current.endBlock.1.proto.upvalues = st.current.proto.upvalues := by
    rw [heq]
    rfl
  have hgiven₀ : FunctionScope.given (st₀.mapCurrent fun s => s.beginBlock isLoop).scopes =
      FunctionScope.given st₀.scopes := given_mapCurrent hs₀.exists_scope rfl
  refine ⟨⟨hs.mapCurrent (hs.current.endBlock hblocks) hup, ⟨?_, ?_, he.captured,
    (given_mapCurrent hs.exists_scope hup).trans (he.given.trans hgiven₀)⟩, ?_, ?_⟩, ?_, ?_⟩
  · rw [State.current_mapCurrent hs.exists_scope]
    exact hext
  · rw [State.outer_mapCurrent]
    exact houter
  · unfold State.top
    rw [State.current_mapCurrent hs.exists_scope, heq]
    exact hlevel
  · unfold State.level
    rw [State.current_mapCurrent hs.exists_scope, hlocals]
  · rw [State.current_mapCurrent hs.exists_scope]
    rw [heq] at hb ⊢
    have hb' : b = b' := hb
    rw [hb']
    exact ((hs.current.blocks b' (hblocks ▸ List.mem_cons_self ..)).1).grows
      (FunctionScope.grows_recorded _ _)
  · rw [State.current_mapCurrent hs.exists_scope, heq]
    exact FunctionScope.grows_recorded _ _

theorem closeBlock_moves (h₀ : beginBlock isLoop st₀ = .ok u st₁) (hs₀ : Sound Good ps' st₀)
    (he : Extends st₁ st) (hs : Sound Good ps st) (h : closeBlock st = .ok b st') :
    Moves Good ps st₀ st' st₀.level st₀.level ∧
      (∀ n ∈ b.breaks, st'.current.proto.opcodeAt? n = some .jump) ∧
      st.current.proto.Grows st'.current.proto := by
  simp only [closeBlock, bind_ok] at h
  obtain ⟨open', st₂, hcurrent, _, st₃, hclose, block, st₄, hend, h⟩ := h
  obtain ⟨rfl, -⟩ := currentBlock_ok hcurrent
  have hopen := currentBlock_sound hcurrent hs
  have hclose' := closeIf_moves hclose hs hopen.captured
  obtain ⟨hmove, hblock, hgrow⟩ :=
    endBlock_moves h₀ hs₀ (he.trans hclose'.extends') hclose'.sound hend
  simp only [scope_ok, and_assoc, exists_and_left, exists_eq_left] at h
  split at h
  · cases hgotos : block.gotos with
    | nil =>
      simp only [hgotos, pure_ok] at h
      obtain ⟨rfl, rfl⟩ := h
      exact ⟨hmove, hblock.breaks, hclose'.grows.trans hgrow⟩
    | cons g gs => simp only [hgotos, defect_ok] at h
  · simp only [bind_ok, pure_ok] at h
    obtain ⟨_, st₅, hmodify, rfl, rfl⟩ := h
    have hmodify' := modifyBlock_moves hmodify hmove.sound fun b' _ => ⟨rfl, rfl, fun hb' =>
      { hb' with
        gotos := fun g hg => by
          rcases List.mem_append.mp hg with hg | hg
          · exact hb'.gotos g hg
          · exact hblock.gotos g hg }⟩
    exact ⟨hmove.followed hmodify', fun n hn => hmodify'.grows.opcodeAt? (hblock.breaks n hn),
      (hclose'.grows.trans hgrow).trans hmodify'.grows⟩

end Generator
end LuaMachine
