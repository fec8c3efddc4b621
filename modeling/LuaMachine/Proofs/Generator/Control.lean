import LuaMachine.Proofs.Generator.Statements
/-! # Conditions and loops

Blocks, conditions and loops, which jump over their parts and back. The words of a counting loop are
written before their targets are known and stay open until the end of the loop.

* `EnclosedSound`, `ClauseSound`: what is known of blocks and of the clauses of a condition.
* `patchLoop_moves`: a word of a loop is finished when its target is known.
* `declares_cond`, `declares_numericFor` and the like: the cases of the induction over statements.
-/
set_option autoImplicit false

namespace LuaMachine
namespace Generator

/-- The action keeps a sound state sound and leaves no variables of its own. -/
def EnclosedSound (Good : Prototype → Prop) (body : Gen Unit) : Prop :=
  ∀ (ps : List Nat) (st st' : State) (u : Unit), Sound Good ps st → st.top = st.level →
    body st = .ok u st' → Moves Good ps st st' st.level st.level

/-- The action gives jumps that are not patched yet. -/
def ClauseSound (Good : Prototype → Prop) (clause : Gen (Bool × List Nat)) : Prop :=
  ∀ (ps : List Nat) (st st' : State) (r : Bool × List Nat), Sound Good ps st → st.top = st.level →
    clause st = .ok r st' → Moves Good ps st st' st.level st.level ∧
      ∀ n ∈ r.2, st'.current.proto.opcodeAt? n = some .jump

variable {Good : Prototype → Prop} {ps : List Nat} {st st' st₀ st₁ : State} {u : Unit}
  {line n t level : Nat} {e condition : Expr} {b : ScopeBlock} {isLoop : Bool} {body : Gen Unit}
  {act : Evaluation} {op : Opcode} {a : Nat}

/-! ## Blocks -/

theorem inBlock_moves (h : inBlock isLoop body st = .ok b st') (hs : Sound Good ps st)
    (htop : st.top = st.level) (hbody : BodySound Good body) :
    Moves Good ps st st' st.level st.level ∧
      ∀ n ∈ b.breaks, st'.current.proto.opcodeAt? n = some .jump := by
  simp only [inBlock, bind_ok] at h
  obtain ⟨_, st₁, hbegin, _, st₂, hinner, hclose⟩ := h
  obtain ⟨hs₁, htop₁, hlevel₁, -⟩ := beginBlock_sound hbegin hs
  obtain ⟨m, hmove⟩ := hbody _ _ _ _ hs₁ (by omega) hinner
  obtain ⟨hclosed, hbreaks, -⟩ := closeBlock_moves hbegin hs hmove.extends' hmove.sound hclose
  exact ⟨hclosed, hbreaks⟩

theorem enclosedSound_inBlock (hbody : BodySound Good body) :
    EnclosedSound Good (do let _ ← inBlock isLoop body) := by
  intro ps st st' u hs htop h
  simp only [bind_ok, pure_ok] at h
  obtain ⟨b, st₁, h, -, rfl⟩ := h
  exact (inBlock_moves h hs htop hbody).1

theorem declares_block {ss : List Stmt} (line : Nat)
    (hbody : BodySound Good (statements true ss)) :
    Declares Good 0 (statement (.block ss line)) := by
  intro ps st st' u hs htop h
  rw [statement, bind_ok] at h
  obtain ⟨_, st₁, hline, h⟩ := h
  have hstep₁ := setLine_step hline hs
  have htop₁ := hstep₁.top_eq
  have hlevel₁ := hstep₁.level
  have hmove := enclosedSound_inBlock hbody _ _ _ _ hstep₁.sound (by omega) h
  exact (hstep₁.moves.trans hmove).cast hlevel₁ hlevel₁

/-! ## Conditions -/

theorem jumpOver_moves {more : Bool} {ns : List Nat} (h : jumpOver more st = .ok ns st')
    (hs : Sound Good ps st) : Moves Good ps st st' st.top st.level ∧
      ∀ n ∈ ns, st'.current.proto.opcodeAt? n = some .jump := by
  unfold jumpOver at h
  split at h
  · simp only [bind_ok, pure_ok] at h
    obtain ⟨n, st₁, hjump, rfl, rfl⟩ := h
    obtain ⟨hmove, hop⟩ := emitJump_moves hjump hs
    refine ⟨hmove, fun m hm => ?_⟩
    rw [List.mem_singleton.mp hm]
    exact hop
  · simp only [pure_ok] at h
    obtain ⟨rfl, rfl⟩ := h
    exact ⟨.refl hs, by simp⟩

theorem clauseSound (more : Bool) (hact : EvaluationSound Good act)
    (hbody : EnclosedSound Good body) : ClauseSound Good (clause condition act body more) := by
  intro ps st st' r hs htop h
  unfold clause at h
  cases hfold : condition.fold with
  | some k =>
    simp only [hfold] at h
    split at h
    · simp only [pure_ok] at h
      obtain ⟨rfl, rfl⟩ := h
      exact ⟨(Moves.refl hs).cast htop rfl, by simp⟩
    · simp only [bind_ok, pure_ok] at h
      obtain ⟨_, st₁, hinner, rfl, rfl⟩ := h
      exact ⟨hbody _ _ _ _ hs htop hinner, by simp⟩
  | none =>
    simp only [hfold, bind_ok, pure_ok] at h
    obtain ⟨next, st₁, hnext, _, st₂, hinner, ns, st₃, hover, _, st₄, hpatch, rfl, rfl⟩ := h
    obtain ⟨hstep₁, -, hop⟩ := jumpIfFalse_step hnext hs hact
    have htop₁ := hstep₁.top_eq
    have hlevel₁ := hstep₁.level
    have hinner' := hbody _ _ _ _ hstep₁.sound (by omega) hinner
    obtain ⟨hover', hjumps⟩ := jumpOver_moves hover hinner'.sound
    have hpatch' := patchJumpHere_moves hpatch hover'.sound
      ((hinner'.trans hover').grows.opcodeAt? hop)
    exact ⟨(((hstep₁.moves.trans hinner').followed hover').followed hpatch').cast hlevel₁ hlevel₁,
      fun m hm => hpatch'.grows.opcodeAt? (hjumps m hm)⟩

theorem guardSound {ss : List Stmt} (more : Bool) (hcond : ExprSound Good condition)
    (hbody : BodySound Good (statements true ss)) :
    ClauseSound Good (clause condition (fun t => evaluate condition (.register t))
      (do let _ ← inBlock false (statements true ss)) more) :=
  clauseSound more hcond.evaluation (enclosedSound_inBlock hbody)

theorem branchesSound_nil (hasElse : Bool) : ClauseSound Good (branches [] hasElse) := by
  intro ps st st' r hs htop h
  rw [branches, pure_ok] at h
  obtain ⟨rfl, rfl⟩ := h
  exact ⟨(Moves.refl hs).cast htop rfl, by simp⟩

/-- Clauses one after the other, unless the first one is always true. -/
theorem clauseSound_append {first : Gen (Bool × List Nat)} {rest : Gen (Bool × List Nat)}
    {r r' : Bool × List Nat} (hfirst : ClauseSound Good first) (hrest : ClauseSound Good rest)
    (hs : Sound Good ps st) (htop : st.top = st.level) (h : first st = .ok r st₁)
    (h' : (r' = (true, []) ∧ st' = st₁) ∨ rest st₁ = .ok r' st') :
    Moves Good ps st st' st.level st.level ∧
      ∀ n ∈ r.2 ++ r'.2, st'.current.proto.opcodeAt? n = some .jump := by
  obtain ⟨hmove, hjumps⟩ := hfirst _ _ _ _ hs htop h
  have htop₁ := hmove.top_eq
  have hlevel₁ := hmove.level_eq
  rcases h' with ⟨rfl, rfl⟩ | h'
  · exact ⟨hmove, by simpa using hjumps⟩
  · obtain ⟨hmove', hjumps'⟩ := hrest _ _ _ _ hmove.sound (by omega) h'
    refine ⟨(hmove.trans hmove').cast hlevel₁ hlevel₁, fun n hn => ?_⟩
    rcases List.mem_append.mp hn with hn | hn
    · exact hmove'.grows.opcodeAt? (hjumps n hn)
    · exact hjumps' n hn

theorem branchesSound_cons {ss : List Stmt} {rest : List Branch} (hasElse : Bool)
    (hcond : ExprSound Good condition) (hbody : BodySound Good (statements true ss))
    (hrest : ClauseSound Good (branches rest hasElse)) :
    ClauseSound Good (branches (.mk condition ss :: rest) hasElse) := by
  intro ps st st' r hs htop h
  rw [branches, bind_ok] at h
  obtain ⟨⟨decided, jumps⟩, st₁, hclause, h⟩ := h
  have hfirst := guardSound (!rest.isEmpty || hasElse) hcond hbody
  cases decided with
  | true =>
    simp only [if_true, pure_ok] at h
    obtain ⟨rfl, rfl⟩ := h
    exact hfirst _ _ _ _ hs htop hclause
  | false =>
    simp only [Bool.false_eq_true, if_false, bind_ok, pure_ok] at h
    obtain ⟨⟨decided, more⟩, st₂, hmore, rfl, rfl⟩ := h
    exact clauseSound_append hfirst hrest hs htop hclause (.inr hmore)

theorem declares_cond {ss : List Stmt} {more : List Branch} {otherwise : Option Block} (line : Nat)
    (hcond : ExprSound Good condition) (hbody : BodySound Good (statements true ss))
    (hmore : ∀ hasElse, ClauseSound Good (branches more hasElse))
    (hotherwise : ∀ ss', otherwise = some ss' → BodySound Good (statements true ss')) :
    Declares Good 0 (statement (.cond condition ss more otherwise line)) := by
  intro ps st st' u hs htop h
  rw [statement] at h
  simp only [bind_ok] at h
  obtain ⟨_, st₁, hline, ⟨decided, jumps⟩, st₂, hclause, ⟨decided', further⟩, st₃, hfurther, _, st₄,
    helse, h⟩ := h
  have hstep₁ := setLine_step hline hs
  have htop₁ := hstep₁.top_eq
  have hlevel₁ := hstep₁.level
  have hfirst := guardSound (!more.isEmpty || otherwise.isSome) hcond hbody
  have hrest : ((decided', further) = (true, []) ∧ st₃ = st₂) ∨
      branches more otherwise.isSome st₂ = .ok (decided', further) st₃ := by
    cases decided with
    | true =>
      simp only [if_true, pure_ok] at hfurther
      exact .inl hfurther
    | false => exact .inr hfurther
  obtain ⟨hmove₃', hjumps⟩ := clauseSound_append hfirst (hmore otherwise.isSome) hstep₁.sound
    (by omega) hclause hrest
  have hmove₃ := hstep₁.moves.trans hmove₃'
  have htop₃ := hmove₃.top_eq
  have hlevel₃ := hmove₃.level_eq
  have helse' : Moves Good ps st₃ st₄ st₃.level st₃.level := by
    cases otherwise with
    | none =>
      simp only [pure_ok] at helse
      obtain ⟨-, rfl⟩ := helse
      exact (Moves.refl hmove₃.sound).cast (by omega) rfl
    | some ss' =>
      simp only at helse
      split at helse
      · simp only [pure_ok] at helse
        obtain ⟨-, rfl⟩ := helse
        exact (Moves.refl hmove₃.sound).cast (by omega) rfl
      · exact enclosedSound_inBlock (hotherwise ss' rfl) _ _ _ _ hmove₃.sound (by omega) helse
  have hpatch := patchAllHere_moves h helse'.sound fun n hn =>
    helse'.grows.opcodeAt? (hjumps n hn)
  exact ((hmove₃.trans helse').followed hpatch).cast (by omega) (by omega)

/-! ## Loops with a condition -/

theorem declares_while {ss : List Stmt} (line : Nat) (hcond : ExprSound Good condition)
    (hbody : BodySound Good (statements true ss)) :
    Declares Good 0 (statement (.whileLoop condition ss line)) := by
  intro ps st st' u hs htop h
  rw [statement, bind_ok] at h
  obtain ⟨_, st₁, hline, h⟩ := h
  have hstep₁ := setLine_step hline hs
  have htop₁ := hstep₁.top_eq
  have hlevel₁ := hstep₁.level
  cases hfold : condition.fold with
  | some k =>
    simp only [hfold] at h
    split at h
    · simp only [pure_ok] at h
      obtain ⟨-, rfl⟩ := h
      exact hstep₁.moves.cast (by omega) (by omega)
    · simp only [bind_ok, here_ok, and_assoc, exists_and_left, exists_eq_left] at h
      obtain ⟨loop, st₂, hloop, _, st₃, hline', _, st₄, hback, h⟩ := h
      obtain ⟨hmove₂, hbreaks⟩ := inBlock_moves hloop hstep₁.sound (by omega) hbody
      have hmove₃ := (setLine_step hline' hmove₂.sound).moves
      have hmove₄ := jumpBack_moves hback hmove₃.sound
        ((hmove₂.followed hmove₃).grows.landing hstep₁.sound.current.settled)
      have hpatch := patchAllHere_moves h hmove₄.sound fun n hn =>
        (hmove₃.followed hmove₄).grows.opcodeAt? (hbreaks n hn)
      exact ((((hstep₁.moves.trans hmove₂).followed hmove₃).followed hmove₄).followed hpatch).cast
        hlevel₁ hlevel₁
  | none =>
    simp only [hfold, bind_ok, here_ok, and_assoc, exists_and_left, exists_eq_left] at h
    obtain ⟨leave, st₂, hleave, loop, st₃, hloop, _, st₄, hline', _, st₅, hback, _, st₆, hpatch,
      h⟩ := h
    obtain ⟨hstep₂, -, hop⟩ := jumpIfFalse_step hleave hstep₁.sound hcond.evaluation
    have htop₂ := hstep₂.top_eq
    have hlevel₂ := hstep₂.level
    obtain ⟨hmove₃, hbreaks⟩ := inBlock_moves hloop hstep₂.sound (by omega) hbody
    have hmove₄ := (setLine_step hline' hmove₃.sound).moves
    have hloop' := (hstep₂.moves.trans hmove₃).followed hmove₄
    have hmove₅ := jumpBack_moves hback hmove₄.sound
      (hloop'.grows.landing hstep₁.sound.current.settled)
    have hmove₆ := patchJumpHere_moves hpatch hmove₅.sound
      (((hmove₃.followed hmove₄).followed hmove₅).grows.opcodeAt? hop)
    have hmove₇ := patchAllHere_moves h hmove₆.sound fun n hn =>
      ((hmove₄.followed hmove₅).followed hmove₆).grows.opcodeAt? (hbreaks n hn)
    exact (hstep₁.moves.trans (((hloop'.followed hmove₅).followed hmove₆).followed hmove₇)).cast
      (by omega) (by omega)

/-- A test with the jump that follows it, as a part of a statement. -/
theorem emitTest_moves {r c : Nat} (htest : emitAbc .test r c 0 st = .ok u st₁)
    (h : emitJump st₁ = .ok n st') (hs : Sound Good ps st) (hr : r < st.current.proto.registers)
    (hc : c < 256) :
    Moves Good ps st st' st.top st.level ∧ st'.current.proto.opcodeAt? n = some .jump := by
  obtain ⟨hsound, hkeeps, htop, -, hop⟩ := emitTest_step htest h hs hr hc
  exact ⟨(⟨hsound, hkeeps, htop⟩ : Step Good ps st st' st.top).moves, hop⟩

theorem repeatUntil_moves {start : Nat} (h : repeatUntil start condition act st = .ok u st')
    (hs : Sound Good ps st) (hact : EvaluationSound Good act)
    (hstart : st.current.proto.Landing start) : Moves Good ps st st' st.top st.level := by
  simp only [repeatUntil, bind_ok] at h
  obtain ⟨block, st₀, hblock, h⟩ := h
  have hopen := currentBlock_sound hblock hs
  obtain ⟨rfl, -⟩ := currentBlock_ok hblock
  cases hfold : condition.fold with
  | some k =>
    simp only [hfold] at h
    split at h
    · simp only [bind_ok] at h
      obtain ⟨_, st₁, hline, _, st₂, hclose, h⟩ := h
      have hmove₁ := (setLine_step hline hs).moves
      have hmove₂ := hmove₁.followed (closeIf_moves hclose hmove₁.sound fun hcaptured =>
        Nat.lt_of_lt_of_le (hopen.captured hcaptured) hmove₁.grows.registers)
      exact hmove₂.followed (jumpBack_moves h hmove₂.sound (hmove₂.grows.landing hstart))
    · simp only [pure_ok] at h
      obtain ⟨-, rfl⟩ := h
      exact .refl hs
  | none =>
    simp only [hfold, bind_ok, free_ok, and_assoc, exists_and_left, exists_eq_left] at h
    obtain ⟨r, st₁, hvalue, _, st₂, hline, h⟩ := h
    obtain ⟨t, hstep₁, hr, -⟩ := toAnyRegister_step hvalue hs hact
    have hstep₂ := hstep₁.trans (setLine_step hline hstep₁.sound)
    have htop₁ := hstep₁.top_eq
    have htop₂ := hstep₂.top_eq
    have hlevel₂ := hstep₂.level
    have hregisters := hstep₂.sound.top_le
    split at h
    next hcaptured =>
      simp only [bind_ok] at h
      obtain ⟨_, st₃, htest, leave, st₄, hleave, _, st₅, hrelease, _, st₆, hclose, _, st₇, hback,
        h⟩ := h
      obtain ⟨hmove₄, hop⟩ := emitTest_moves htest hleave hstep₂.sound (by omega) (by omega)
      have hlevel₄ := hmove₄.level_eq
      have hmove₅ := (release_step hrelease hmove₄.sound).1.moves
      have hsofar := ((hstep₂.moves.trans hmove₄).trans hmove₅).cast rfl (hlevel₄.trans hlevel₂)
      have hmove₆ := closeFrom_moves hclose hmove₅.sound
        (Nat.lt_of_lt_of_le (hopen.captured hcaptured) hsofar.grows.registers)
      have hmove₇ := jumpBack_moves hback hmove₆.sound
        ((hsofar.followed hmove₆).grows.landing hstart)
      have hpatch := patchJumpHere_moves h hmove₇.sound
        (((hmove₅.followed hmove₆).followed hmove₇).grows.opcodeAt? hop)
      exact ((hsofar.followed hmove₆).followed hmove₇).followed hpatch
    next =>
      simp only [bind_ok, jumpBack] at h
      obtain ⟨_, st₃, htest, _, st₄, ⟨jump, st₅, hjump, hpatch⟩, h⟩ := h
      obtain ⟨hmove₅, hop⟩ := emitTest_moves htest hjump hstep₂.sound (by omega) (by omega)
      have hsofar := hstep₂.moves.followed hmove₅
      have hmove₆ := hsofar.followed
        (patchJump_moves hpatch hmove₅.sound hop (hsofar.grows.landing hstart))
      have hlevel₆ := hmove₆.level_eq
      exact (hmove₆.trans (release_step h hmove₆.sound).1.moves).cast rfl (by omega)

theorem declares_repeat {ss : List Stmt} (line : Nat) (hcond : ExprSound Good condition)
    (hbody : BodySound Good (statements false ss)) :
    Declares Good 0 (statement (.repeatLoop ss condition line)) := by
  intro ps st st' u hs htop h
  rw [statement] at h
  simp only [bind_ok, here_ok, and_assoc, exists_and_left, exists_eq_left] at h
  obtain ⟨_, st₁, hline, _, st₂, hbegin, _, st₃, hinner, _, st₄, huntil, loop, st₅, hclose, h⟩ := h
  have hstep₁ := setLine_step hline hs
  have htop₁ := hstep₁.top_eq
  have hlevel₁ := hstep₁.level
  obtain ⟨hs₂, htop₂, hlevel₂, hproto₂⟩ := beginBlock_sound hbegin hstep₁.sound
  obtain ⟨m, hmove₃⟩ := hbody _ _ _ _ hs₂ (by omega) hinner
  have hstart : st₂.current.proto.Landing st₁.current.proto.chunk.size := by
    rw [hproto₂]
    exact hstep₁.sound.current.settled
  have hmove₄ := hmove₃.trans (repeatUntil_moves huntil hmove₃.sound hcond.evaluation
    (hmove₃.grows.landing hstart))
  obtain ⟨hmove₅, hbreaks, -⟩ :=
    closeBlock_moves hbegin hstep₁.sound hmove₄.extends' hmove₄.sound hclose
  have hpatch := patchAllHere_moves h hmove₅.sound hbreaks
  exact ((hstep₁.moves.trans hmove₅).followed hpatch).cast hlevel₁ hlevel₁

/-! ## Words of loops -/

/-- The word stays open until it is patched. -/
theorem emitLoop_moves (h : emitLoop op a st = .ok n st') (hs : Sound Good ps st)
    (hlist : op ≠ .setList) :
    Moves Good (n :: ps) st st' st.top st.level ∧ n = st.current.proto.chunk.size ∧
      st'.current.proto.chunk.code[n]? = some (.asbx op a 0) ∧
      st'.current.proto.chunk.size = n + 1 := by
  have hop : (Instruction.asbx op a 0).opcode? = some op := Instruction.opcode?_asbx _ 0
  obtain ⟨hn, hword, hsize⟩ := emit_word h hs
  refine ⟨⟨emit_sound_open h hs (by simp [hop, hlist]), emit_extends h hs, emit_top h hs, ?_⟩, hn,
    hword, hsize⟩
  unfold State.level
  rw [(emit_adds h hs).locals]

/-- The word after one that is no list of items can be gone to. -/
theorem landing_succ {p : Prototype} {i : Instruction} (hi : p.chunk.code[n]? = some i)
    (hop : i.opcode? = some op) (hlist : op ≠ .setList) : p.Landing (n + 1) := by
  refine ⟨Prototype.lt_size_of_word hi, fun m hm heq => ?_⟩
  obtain rfl : n = m := by omega
  have hopcode := Prototype.opcodeAt?_eq_some_iff.mpr ⟨i, hi, hop⟩
  exact hlist (Option.some.inj (hopcode.symm.trans heq))

theorem patchLoop_fits {p : Prototype} (hop : op = .forPrepare ∨ op = .forLoop ∨ op = .iterLoop)
    (ha : a + 4 ≤ p.registers) (hmax : p.registers ≤ 250)
    (hd : (distance n t).natAbs ≤ Instruction.maxSignedBx) (ht : p.Landing t)
    (ht' : op = .forPrepare → p.Landing (t + 1)) :
    ((Instruction.asbx op a 0).withSignedBx (distance n t)).FitsAt p n op := by
  have htarget : ((n + 1 + (Instruction.asbx op a 0 |>.withSignedBx (distance n t)).signedBx : Int))
      = t := by
    rw [Instruction.signedBx_withSignedBx _ hd, distance]
    omega
  have hfield : ((Instruction.asbx op a 0).withSignedBx (distance n t)).a = a := by
    rw [Instruction.a_withSignedBx, Instruction.a_asbx _ (by omega)]
  refine ⟨⟨?_, ?_, ?_, ?_⟩, ?_, ?_, ?_, ?_⟩
  · rw [hfield]
    rintro run hrun k hk
    rcases hop with rfl | rfl | rfl <;> simp only [Opcode.runs, List.mem_singleton] at hrun <;>
      subst hrun <;> simp only at hk ⊢ <;> omega
  · rcases hop with rfl | rfl | rfl <;> simp [Opcode.constant?]
  · rcases hop with rfl | rfl | rfl <;> simp [Opcode.upvalue?]
  · rcases hop with rfl | rfl | rfl <;> simp [Opcode.child?]
  · intro t' ht''
    rcases hop with rfl | rfl | rfl <;>
      simp only [Instruction.targets, List.mem_cons, List.not_mem_nil, or_false, htarget] at ht''
    · rcases ht'' with rfl | rfl
      · exact ⟨t, rfl, ht⟩
      · exact ⟨t + 1, by simp, ht' rfl⟩
    · exact ⟨t, ht'', ht⟩
    · exact ⟨t, ht'', ht⟩
  · rcases hop with rfl | rfl | rfl <;> simp
  · rcases hop with rfl | rfl | rfl <;> simp
  · rcases hop with rfl | rfl | rfl <;> simp

theorem patchLoop_moves {top : Nat} (h : patchLoop n t st = .ok u st')
    (hmove : Moves Good (n :: ps) st₀ st top level) (hn : st₀.current.proto.chunk.size ≤ n)
    (hword : st.current.proto.chunk.code[n]? = some (.asbx op a 0))
    (hop : op = .forPrepare ∨ op = .forLoop ∨ op = .iterLoop)
    (ha : a + 4 ≤ st.current.proto.registers) (ht : st.current.proto.Landing t)
    (ht' : op = .forPrepare → st.current.proto.Landing (t + 1)) :
    Moves Good ps st₀ st' top level ∧ st.current.proto.Grows st'.current.proto := by
  obtain ⟨hd, rfl⟩ := patchWithin_ok h
  have hs := hmove.sound
  have hopcode : (Instruction.asbx op a 0).opcode? = some op := Instruction.opcode?_asbx _ 0
  have hf : ((Instruction.asbx op a 0).withSignedBx (distance n t)).opcode? =
      (Instruction.asbx op a 0).opcode? := Instruction.opcode?_withSignedBx _
  have hgrow := FunctionScope.grows_patched (f := fun i => i.withSignedBx (distance n t)) hword hf
  have hfit := patchLoop_fits hop ha hs.registers_le hd ht ht'
  refine ⟨⟨hs.mapCurrent ?_ rfl, ⟨?_, ?_, hmove.extends'.captured,
    (given_mapCurrent hs.exists_scope rfl).trans hmove.extends'.given⟩, ?_, ?_⟩, ?_⟩
  · refine hs.current.patched hword hopcode hf ?_
    exact hgrow.fitsAt hfit
  · rw [State.current_mapCurrent hs.exists_scope]
    exact hmove.extends'.current.patched hword hf (.inl hn)
  · rw [State.outer_mapCurrent]
    exact hmove.extends'.outer
  · rw [← hmove.top_eq]
    unfold State.top
    rw [State.current_mapCurrent hs.exists_scope]
    rfl
  · rw [← hmove.level_eq]
    unfold State.level
    rw [State.current_mapCurrent hs.exists_scope]
    rfl
  · rw [State.current_mapCurrent hs.exists_scope]
    exact hgrow

/-! ## Counting loops and loops over iterators -/

/-- The block of a loop with its variables, after which its start can still be gone to. -/
theorem loopBlock_moves {st₂ st₃ st₄ st₅ : State} {bs : List Binder} {r : Nat} {u₁ u₃ u₄ : Unit}
    (hbegin : beginBlock true st₀ = .ok u₁ st₁) (hreserve : reserve bs.length line st₁ = .ok r st₂)
    (hmore : Sound Good ps st₁ → Sound Good ps st₂ → Step Good ps st₂ st₃ st₂.top)
    (hbinders : bs.forM addBinder st₃ = .ok u₃ st₄) (hinner : body st₄ = .ok u₄ st₅)
    (hclose : closeBlock st₅ = .ok b st') (hs : Sound Good ps st₀) (htop : st₀.top = st₀.level)
    (hbody : BodySound Good body) :
    Moves Good ps st₀ st' st₀.level st₀.level ∧
      (∀ n ∈ b.breaks, st'.current.proto.opcodeAt? n = some .jump) ∧
      st'.current.proto.Landing st₄.current.proto.chunk.size ∧
      st₀.top + bs.length ≤ st'.current.proto.registers ∧
      st₃.current.proto.Grows st'.current.proto := by
  obtain ⟨hs₁, htop₁, hlevel₁, -⟩ := beginBlock_sound hbegin hs
  have hstep₂ := (reserve_step hreserve hs₁).1
  have hstep₃' := hmore hs₁ hstep₂.sound
  have hstep₃ := hstep₂.trans hstep₃'
  have htop₂ := hstep₂.top_eq
  have htop₃ := hstep₃.top_eq
  have hlevel₃ := hstep₃.level
  have hmove₄ := addBinders_moves hbinders hstep₃.sound
  have htop₄ := hmove₄.top_eq
  have hlevel₄ := hmove₄.level_eq
  obtain ⟨m, hmove₅⟩ := hbody _ _ _ _ hmove₄.sound (by omega) hinner
  obtain ⟨hmove, hbreaks, hend⟩ := closeBlock_moves hbegin hs
    ((hstep₃.moves.trans hmove₄).trans hmove₅).extends' hmove₅.sound hclose
  have hregisters := hstep₂.sound.top_le
  have hgrow := (hmove₄.trans hmove₅).grows.trans hend
  have hmore' := (hstep₃'.grows.trans hgrow).registers
  exact ⟨hmove, hbreaks, (hmove₅.grows.trans hend).landing hmove₄.sound.current.settled, by omega,
    hgrow⟩

theorem declares_numericFor {binder : Binder} {start stop : Expr} {by' : Option Expr}
    {ss : List Stmt} (line : Nat) (hstart : ExprSound Good start) (hstop : ExprSound Good stop)
    (hby : ∀ e, by' = some e → ExprSound Good e) (hbody : BodySound Good (statements true ss)) :
    Declares Good 0 (statement (.numericFor binder start stop by' ss line)) := by
  intro ps st st' u hs htop h
  rw [statement.eq_def] at h
  simp only [bind_ok, here_ok, pure_ok, and_assoc, exists_and_left, exists_eq_left] at h
  obtain ⟨_, st₁, hline, _, st₂, hbegin, base, st₃, hfirst, _, st₄, hsecond, _, st₅, hthird, _, st₆,
    hstate, _, st₇, hline₂, prepare, st₈, hprepare, _, st₉, hbegin', r, st₁₀, hreserve, _, st₁₁,
    hbinder, _, st₁₂, hinner, loop, st₁₃, hclose, _, st₁₄, hline₃, back, st₁₅, hback, _, st₁₆,
    hpatch, _, st₁₇, hpatch', _, st₁₈, hbreaks, block, st₁₉, hclose', -, rfl⟩ := h
  have hstep₁ := setLine_step hline hs
  have htop₁ := hstep₁.top_eq
  have hlevel₁ := hstep₁.level
  obtain ⟨hs₂, htop₂, hlevel₂, -⟩ := beginBlock_sound hbegin hstep₁.sound
  -- the three values of the loop become its first variables
  obtain ⟨hstep₃, hbase⟩ := toTemporary_step hfirst hs₂ hstart.evaluation
  have hstep₄ := hstep₃.trans (toTemporary_step hsecond hstep₃.sound hstop.evaluation).1
  have hthird' : Step Good ps st₄ st₅ (st₄.top + 1) := by
    cases by' with
    | some e => exact (toTemporary_step hthird hstep₄.sound (hby e rfl).evaluation).1
    | none =>
      exact (toTemporary_step hthird hstep₄.sound
        fun _ _ _ _ _ hs' hr h' => loadConstant_step h' hs' hr).1
  have hstep₅ := hstep₄.trans hthird'
  have hmove₆ := hstep₅.moves.trans (addLoopState_moves hstate hstep₅.sound)
  have hmove₇ := hmove₆.followed (setLine_step hline₂ hmove₆.sound).moves
  have htop₃ := hstep₃.top_eq
  have htop₄ := hstep₄.top_eq
  have htop₅ := hstep₅.top_eq
  have hlevel₅ := hstep₅.level
  have htop₇ := hmove₇.top_eq
  have hlevel₇ := hmove₇.level_eq
  -- the first word of the loop stays open until the last one is written
  obtain ⟨hmove₈, hprepare', hword, hsize⟩ := emitLoop_moves hprepare hmove₇.sound (by simp)
  have htop₈ := hmove₈.top_eq
  have hlevel₈ := hmove₈.level_eq
  have hreserve' : reserve [binder].length line st₉ = .ok r st₁₀ := hreserve
  have hbinders : [binder].forM addBinder st₁₀ = .ok () st₁₁ := by simpa using hbinder
  obtain ⟨hmove₁₃, hjumps, hland, hregisters, -⟩ := loopBlock_moves hbegin' hreserve'
    (fun _ hs' => .refl hs') hbinders hinner hclose hmove₈.sound (by omega) hbody
  have hmove₁₄ := (setLine_step hline₃ hmove₁₃.sound).moves
  obtain ⟨hmove₁₅, hback', hword', -⟩ := emitLoop_moves hback hmove₁₄.sound (by simp)
  have hsofar := (hmove₁₃.followed hmove₁₄).followed hmove₁₅
  have hgrow := (hmove₁₄.followed hmove₁₅).grows
  have hregisters' := hgrow.registers
  have hsize₁₄ := (hmove₁₃.followed hmove₁₄).grows.size
  simp only [List.length_singleton] at hregisters
  obtain ⟨hmove₁₆, hgrow₁₆⟩ := patchLoop_moves hpatch hsofar (by omega) hword' (.inr (.inl rfl))
    (by omega) (hgrow.landing hland) (by simp)
  have hregisters₁₆ := hgrow₁₆.registers
  have hback₁₆ := hgrow₁₆.landing (hmove₁₅.grows.landing hmove₁₄.sound.current.settled)
  have hnext₁₆ := hgrow₁₆.landing (landing_succ hword' (Instruction.opcode?_asbx _ 0) (by simp))
  rw [← hback'] at hback₁₆
  obtain ⟨hmove₁₇, hgrow₁₇⟩ := patchLoop_moves hpatch'
    (hmove₈.followed (hmove₁₆.cast (by omega) rfl)) (by omega)
    (hmove₁₆.extends'.current.word_eq hword (by simp [Instruction.opcode?_asbx]))
    (.inl rfl) (by omega) hback₁₆ fun _ => hnext₁₆
  have hmove₁₈ := hmove₁₇.followed (patchAllHere_moves hbreaks hmove₁₇.sound fun n hn =>
    ((hgrow.trans hgrow₁₆).trans hgrow₁₇).opcodeAt? (hjumps n hn))
  have hmove := hstep₁.moves.trans (closeBlock_moves hbegin hstep₁.sound
    (hmove₇.extends'.trans hmove₁₈.extends') hmove₁₈.sound hclose').1
  exact hmove.cast hlevel₁ hlevel₁

theorem declares_genericFor {bs : List Binder} {iterators : List Expr} {ss : List Stmt}
    (line : Nat) (hiterators : ItemsSound Good iterators (items iterators))
    (hbody : BodySound Good (statements true ss)) :
    Declares Good 0 (statement (.genericFor bs iterators ss line)) := by
  intro ps st st' u hs htop h
  rw [statement] at h
  simp only [bind_ok, here_ok, free_ok, pure_ok, and_assoc, exists_and_left, exists_eq_left] at h
  obtain ⟨_, st₁, hline, _, st₂, hbegin, count, st₃, hlist, _, st₄, hstate, _, st₅, hline₂, enter,
    st₆, henter, _, st₇, hbegin', r, st₈, hreserve, _, st₉, hensure, _, st₁₀, hbinders, _, st₁₁,
    hinner, loop, st₁₂, hclose, _, st₁₃, hline₃, _, st₁₄, hpatch, _, st₁₅, hcall, back, st₁₆, hback,
    _, st₁₇, hpatch', _, st₁₈, hbreaks, block, st₁₉, hclose', -, rfl⟩ := h
  have hstep₁ := setLine_step hline hs
  have htop₁ := hstep₁.top_eq
  have hlevel₁ := hstep₁.level
  obtain ⟨hs₂, htop₂, hlevel₂, -⟩ := beginBlock_sound hbegin hstep₁.sound
  -- the three values of the loop become its first variables
  obtain ⟨t, hstep₃, -, -, hwanted⟩ := adjusted_step hlist hs₂ hiterators
  have hwanted' := hwanted 3 rfl
  have hmove₄ := hstep₃.moves.trans (addLoopState_moves hstate hstep₃.sound)
  have hmove₅ := hmove₄.followed (setLine_step hline₂ hmove₄.sound).moves
  obtain ⟨hmove₆', henter'⟩ := emitJump_moves henter hmove₅.sound
  have hmove₆ := hmove₅.followed hmove₆'
  have htop₃ := hstep₃.top_eq
  have hlevel₃ := hstep₃.level
  have htop₆ := hmove₆.top_eq
  have hlevel₆ := hmove₆.level_eq
  have hensure' : Sound Good ps st₈ → Step Good ps st₈ st₉ st₈.top ∧
      ((st₂.top : Int) + 3 + (max bs.length 3 : Nat)) ≤ st₉.current.proto.registers :=
    fun hs' => ensureRegisters_step hensure hs'
  obtain ⟨hmove₁₂, hjumps, hland, -, hgrow₁₂⟩ := loopBlock_moves hbegin' hreserve
    (fun _ hs' => (hensure' hs').1) hbinders hinner hclose hmove₆.sound (by omega) hbody
  have hs₈ := (reserve_step hreserve (beginBlock_sound hbegin' hmove₆.sound).1).1.sound
  have hroom := (hensure' hs₈).2
  have hroom' := hgrow₁₂.registers
  have hmax := hmove₁₂.sound.registers_le
  -- the jump into the loop arrives at the call of the iterator
  have hmove₁₃ := (setLine_step hline₃ hmove₁₂.sound).moves
  have hmove₁₄ := patchJumpHere_moves hpatch hmove₁₃.sound
    ((hmove₁₂.followed hmove₁₃).grows.opcodeAt? henter')
  have hgrow₁₄ := (hmove₁₃.followed hmove₁₄).grows
  have hroom₁₄ := hgrow₁₄.registers
  have hmove₁₅ := emitStatement_moves hcall hmove₁₄.sound (.inr (.inr rfl)) (by omega) (by omega)
    (by omega) (by
      simp only [Opcode.runs, List.mem_cons, List.not_mem_nil, or_false]
      rintro run (rfl | rfl) <;> exact .inr (by simp only; omega))
  obtain ⟨hmove₁₆, hback', hword, -⟩ := emitLoop_moves hback hmove₁₅.sound (by simp)
  have hsofar := (((hmove₁₂.followed hmove₁₃).followed hmove₁₄).followed hmove₁₅).followed hmove₁₆
  have hgrow₁₆ := hgrow₁₄.trans (hmove₁₅.followed hmove₁₆).grows
  have hroom₁₆ := hgrow₁₆.registers
  have hsize := ((hmove₁₂.followed hmove₁₃).followed (hmove₁₄.followed hmove₁₅)).grows.size
  obtain ⟨hmove₁₇, hgrow₁₇⟩ := patchLoop_moves hpatch' hsofar (by omega) hword (.inr (.inr rfl))
    (by omega) (hgrow₁₆.landing hland) (by simp)
  have hmove₁₈ := hmove₁₇.followed (patchAllHere_moves hbreaks hmove₁₇.sound fun n hn =>
    (hgrow₁₆.trans hgrow₁₇).opcodeAt? (hjumps n hn))
  have hmove := hstep₁.moves.trans (closeBlock_moves hbegin hstep₁.sound
    (hmove₆.extends'.trans hmove₁₈.extends') hmove₁₈.sound hclose').1
  exact hmove.cast hlevel₁ hlevel₁

end Generator
end LuaMachine
