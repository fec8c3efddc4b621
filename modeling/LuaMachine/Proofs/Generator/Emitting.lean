import LuaMachine.Proofs.Generator.Registers
/-! # Emitting instructions

Each action that writes words keeps the state sound if the operands are within the function.

* `emitAbc_step`, `loadConstant_step`: words that only name operands.
* `emitTest_step`, `emitJump_step`, `patchJump_sound`: conditions and jumps.
* `addConstant_step`, `keyPlace?_step`: the pool of constants.
-/
set_option autoImplicit false

namespace LuaMachine

/-! ## Words that only name operands -/

/-- Instructions that go on with the next word and stand alone, but for calls and new closures. -/
def Opcode.isSimple : Opcode → Bool
  | .jump | .test | .setList | .extra | .forPrepare | .forLoop | .iterCall | .iterLoop => false
  | .call | .closure | .close | .ret => false
  | _ => true

/-- The fields A, B and C name what exists in the function. -/
structure Opcode.Within (op : Opcode) (p : Prototype) (a b c : Nat) : Prop where
  registers : ∀ run ∈ op.runs a b c, run.2 = 0 ∨ run.1 + run.2 ≤ p.registers
  constant : ∀ k, op.constant? b c 0 = some k → k < p.chunk.constants.size
  upvalue : ∀ u, op.upvalue? a b = some u → u < p.upvalues.size

section Words

variable {p : Prototype} {op : Opcode} {i : Instruction} {a b c n : Nat}

theorem Opcode.Within.of_registers (hruns : ∀ run ∈ op.runs a b c,
    run.2 = 0 ∨ run.1 + run.2 ≤ p.registers) (hconst : op.constant? b c 0 = none)
    (hup : op.upvalue? a b = none) : op.Within p a b c :=
  ⟨hruns, by simp [hconst], by simp [hup]⟩

theorem targets_of_isSimple (h : op.isSimple = true) : i.targets n op = [] := by
  cases op <;> first | rfl | cases h

theorem fitsAt_of_isSimple (h : op.isSimple = true) (hi : i.OperandsFit p op) :
    i.FitsAt p n op := by
  refine ⟨hi, ?_, ?_, ?_, ?_⟩
  · rw [targets_of_isSimple h]
    simp
  all_goals
    rintro rfl
    cases h

theorem plainWord_of_isSimple {s : FunctionScope} {first stop : Nat} (h : op.isSimple = true) :
    s.PlainWord first stop n i op := by
  refine ⟨?_, ?_, ?_, ?_⟩
  · refine ⟨?_, ?_, ?_, ?_, ?_, ?_⟩ <;>
    · rintro rfl
      cases h
  · rw [targets_of_isSimple h]
    simp
  all_goals
    rintro rfl
    cases h

theorem operandsFit_abc (h : op.Within p a b c) (ha : a < 256) (hb : b < 256) (hc : c < 256)
    (hconst : op ≠ .loadConstant) (hclosure : op ≠ .closure) :
    (Instruction.abc op a b c).OperandsFit p op where
  registers run hrun k hk := by
    rw [Instruction.a_abc op ha, Instruction.b_abc op hb, Instruction.c_abc op hc] at hrun
    have hreg := h.registers run hrun
    omega
  constant k hk := by
    rw [Instruction.b_abc op hb, Instruction.c_abc op hc] at hk
    refine h.constant k ?_
    rw [← hk]
    cases op <;> first | rfl | exact absurd rfl hconst
  upvalue u hu := by
    rw [Instruction.a_abc op ha, Instruction.b_abc op hb] at hu
    exact h.upvalue u hu
  child m hm := by
    cases op <;> first | exact absurd rfl hclosure | cases hm

theorem operandsFit_loadConstant (ha : a < p.registers) (hmax : p.registers ≤ 250)
    (hn : n < p.chunk.constants.size) (hlimit : n ≤ Instruction.maxBx) :
    (Instruction.abx .loadConstant a n).OperandsFit p .loadConstant where
  registers run hrun k hk := by
    rw [Instruction.a_abx _ (by omega)] at hrun
    simp only [Opcode.runs, List.mem_singleton] at hrun
    subst hrun
    have hk' : k < 1 := hk
    change a + k < p.registers
    omega
  constant k hk := by
    rw [Instruction.bx_abx _ hlimit] at hk
    cases hk
    exact hn
  upvalue u hu := by cases hu
  child m hm := by cases hm

theorem operandsFit_closure (ha : a < p.registers) (hmax : p.registers ≤ 250)
    (hn : n < p.children.size) (hlimit : n ≤ Instruction.maxBx) :
    (Instruction.abx .closure a n).OperandsFit p .closure where
  registers run hrun k hk := by
    rw [Instruction.a_abx _ (by omega)] at hrun
    simp only [Opcode.runs, List.mem_singleton] at hrun
    subst hrun
    have hk' : k < 1 := hk
    change a + k < p.registers
    omega
  constant k hk := by cases hk
  upvalue u hu := by cases hu
  child m hm := by
    rw [Instruction.bx_abx _ hlimit] at hm
    cases hm
    exact hn

/-- A word without operands among registers, constants, upvalues and children. -/
theorem operandsFit_jump : i.OperandsFit p .jump :=
  ⟨by simp [Opcode.runs], by simp [Opcode.constant?], by simp [Opcode.upvalue?],
    by simp [Opcode.child?]⟩

theorem fitsAt_jump {t : Nat} (ht : p.Landing t) (hi : (n : Int) + 1 + i.signedAx = t) :
    i.FitsAt p n .jump := by
  refine ⟨operandsFit_jump, ?_, by simp, by simp, by simp⟩
  intro t' ht'
  simp only [Instruction.targets, List.mem_singleton] at ht'
  exact ⟨t, ht'.trans hi, ht⟩

end Words

namespace Generator

variable {Good : Prototype → Prop} {ps : List Nat} {st st' st₀ st₁ : State} {i : Instruction}
  {op : Opcode} {n : Nat}

theorem emit_ok (h : emit i st = .ok n st') :
    n = st.current.proto.chunk.size ∧ st' = st.mapCurrent fun s => s.written i st.line := by
  simp only [emit, bind_ok, here_ok, currentLine_ok, modifyScope_ok, pure_ok, and_assoc,
    exists_and_left, exists_eq_left, exists_const] at h
  obtain ⟨rfl, rfl⟩ := h
  exact ⟨rfl, rfl⟩

theorem current_written (hs : st.scopes ≠ []) :
    (st.mapCurrent fun s => s.written i st.line).current = st.current.written i st.line :=
  State.current_mapCurrent hs

/-- Emitting a finished word. -/
theorem emit_sound (h : emit i st = .ok n st') (hs : Sound Good ps st) (hop : i.opcode? = some op)
    (hlist : op ≠ .setList) (hfit : i.FitsAt st'.current.proto st.current.proto.chunk.size op) :
    Sound Good ps st' := by
  obtain ⟨rfl, rfl⟩ := emit_ok h
  rw [current_written hs.exists_scope] at hfit
  refine hs.mapCurrent (hs.current.written ?_ (fun _ hm => hm) fun _ => ⟨op, hop, hfit⟩) rfl
  rw [hop]
  simpa using hlist

/-- Emitting a word that is not finished yet. -/
theorem emit_sound_open (h : emit i st = .ok n st') (hs : Sound Good ps st)
    (hlist : i.opcode? ≠ some .setList) : Sound Good (n :: ps) st' := by
  obtain ⟨rfl, rfl⟩ := emit_ok h
  exact hs.mapCurrent (hs.current.written hlist (fun _ => List.mem_cons_of_mem _)
    fun hn => absurd (List.mem_cons_self ..) hn) rfl

theorem emit_keeps (h : emit i st = .ok n st') (hs : Sound Good ps st) (hop : i.opcode? = some op)
    (hplain : st'.current.PlainWord st.current.proto.chunk.size (st.current.proto.chunk.size + 1)
      st.current.proto.chunk.size i op) : Keeps st st' := by
  obtain ⟨rfl, rfl⟩ := emit_ok h
  rw [current_written hs.exists_scope] at hplain
  exact .mapCurrent hs.exists_scope (.written hop hplain) rfl

theorem emit_adds (h : emit i st = .ok n st') (hs : Sound Good ps st) :
    st.current.Adds st'.current := by
  obtain ⟨rfl, rfl⟩ := emit_ok h
  rw [current_written hs.exists_scope]
  exact .written _ _ _

theorem emit_extends (h : emit i st = .ok n st') (hs : Sound Good ps st) : Extends st st' := by
  obtain ⟨rfl, rfl⟩ := emit_ok h
  exact .mapCurrent hs.exists_scope (FunctionScope.Adds.written _ _ _).extends rfl

theorem emit_top (h : emit i st = .ok n st') (hs : Sound Good ps st) : st'.top = st.top := by
  obtain ⟨rfl, rfl⟩ := emit_ok h
  unfold State.top
  rw [current_written hs.exists_scope]
  rfl

theorem emit_word (h : emit i st = .ok n st') (hs : Sound Good ps st) :
    n = st.current.proto.chunk.size ∧ st'.current.proto.chunk.code[n]? = some i ∧
      st'.current.proto.chunk.size = n + 1 := by
  obtain ⟨rfl, rfl⟩ := emit_ok h
  rw [current_written hs.exists_scope]
  exact ⟨rfl, FunctionScope.code_written_size, FunctionScope.size_written⟩

theorem emit_grows (h : emit i st = .ok n st') (hs : Sound Good ps st) :
    st.current.proto.Grows st'.current.proto := (emit_extends h hs).current.grows

theorem emit_simple (h : emit i st = .ok n st') (hs : Sound Good ps st)
    (hop : i.opcode? = some op) (hsimple : op.isSimple = true)
    (hi : i.OperandsFit st.current.proto op) : Step Good ps st st' st.top := by
  have hlist : op ≠ .setList := by
    rintro rfl
    cases hsimple
  exact ⟨emit_sound h hs hop hlist
      (fitsAt_of_isSimple hsimple ((emit_grows h hs).operandsFit hi)),
    emit_keeps h hs hop (plainWord_of_isSimple hsimple), emit_top h hs⟩

theorem emitAbc_ok {a b c : Nat} {u : Unit} (h : emitAbc op a b c st = .ok u st') :
    ∃ n, emit (.abc op a b c) st = .ok n st' := by
  simp only [emitAbc, bind_ok, pure_ok] at h
  obtain ⟨n, st₁, h, -, rfl⟩ := h
  exact ⟨n, h⟩

theorem emitAbx_ok {a b : Nat} {u : Unit} (h : emitAbx op a b st = .ok u st') :
    ∃ n, emit (.abx op a b) st = .ok n st' := by
  simp only [emitAbx, bind_ok, pure_ok] at h
  obtain ⟨n, st₁, h, -, rfl⟩ := h
  exact ⟨n, h⟩

theorem emitAbc_step {a b c : Nat} {u : Unit} (h : emitAbc op a b c st = .ok u st')
    (hs : Sound Good ps st) (hsimple : op.isSimple = true) (hconst : op ≠ .loadConstant)
    (ha : a < 256) (hb : b < 256) (hc : c < 256) (hw : op.Within st.current.proto a b c) :
    Step Good ps st st' st.top := by
  obtain ⟨n, h⟩ := emitAbc_ok h
  refine emit_simple h hs (Instruction.opcode?_abc op) hsimple
    (operandsFit_abc hw ha hb hc hconst ?_)
  rintro rfl
  cases hsimple

/-- A word that names registers in use, and nothing else. -/
theorem emitRegisters_step {a b c : Nat} {u : Unit} (h : emitAbc op a b c st = .ok u st')
    (hs : Sound Good ps st) (hsimple : op.isSimple = true) (hconst : op ≠ .loadConstant)
    (hnone : op.constant? b c 0 = none ∧ op.upvalue? a b = none)
    (hfields : a < 256 ∧ b < 256 ∧ c < 256)
    (hruns : ∀ run ∈ op.runs a b c, run.1 + run.2 ≤ st.top) : Step Good ps st st' st.top := by
  refine emitAbc_step h hs hsimple hconst hfields.1 hfields.2.1 hfields.2.2 ⟨?_, ?_, ?_⟩
  · intro run hrun
    exact .inr (Nat.le_trans (hruns run hrun) hs.top_le)
  · simp [hnone.1]
  · simp [hnone.2]

theorem emitMove_step {a b : Nat} {u : Unit} (h : emitAbc .move a b 0 st = .ok u st')
    (hs : Sound Good ps st) (ha : a < st.top) (hb : b < st.top) : Step Good ps st st' st.top := by
  have htop := hs.top_le
  have hmax := hs.registers_le
  refine emitRegisters_step h hs rfl (by simp) ⟨rfl, rfl⟩ (by omega) ?_
  simp only [Opcode.runs, List.mem_cons, List.not_mem_nil, or_false]
  rintro run (rfl | rfl) <;> omega

/-- An operation on two registers, with its result in a third. -/
theorem emitOperation_step {a b c : Nat} {u : Unit} (h : emitAbc op a b c st = .ok u st')
    (hs : Sound Good ps st) (hsimple : op.isSimple = true) (hconst : op ≠ .loadConstant)
    (hnone : op.constant? b c 0 = none ∧ op.upvalue? a b = none)
    (hruns : op.runs a b c = [(a, 1), (b, 1), (c, 1)]) (ha : a < st.top) (hb : b < st.top)
    (hc : c < st.top) : Step Good ps st st' st.top := by
  have htop := hs.top_le
  have hmax := hs.registers_le
  refine emitRegisters_step h hs hsimple hconst hnone (by omega) ?_
  rw [hruns]
  simp only [List.mem_cons, List.not_mem_nil, or_false]
  rintro run (rfl | rfl | rfl) <;> omega

/-! ## Constants -/

/-- A constant is at its place once it is added, and the pool keeps what it has. -/
theorem withConstant_spec {ch : Chunk} {k : Constant} {place : Nat} (h : ch.placeOf k = .ok place)
    (hmax : ch.constants.size ≤ Chunk.maxConstants)
    (hplaces : ∀ (k : Constant) (m : Nat), ch.places[k]? = some m → ch.constants[m]? = some k) :
    (∀ (m : Nat) (k' : Constant), ch.constants[m]? = some k' →
        (ch.withConstant k).constants[m]? = some k') ∧
      (ch.withConstant k).constants.size ≤ Chunk.maxConstants ∧
      (ch.withConstant k).constants[place]? = some k ∧
      ∀ (k' : Constant) (m : Nat), (ch.withConstant k).places[k']? = some m →
        (ch.withConstant k).constants[m]? = some k' := by
  unfold Chunk.placeOf at h
  cases hk : ch.places[k]? with
  | some m =>
    simp only [hk, Except.ok.injEq] at h
    subst h
    have hin : ch.places.contains k = true := by
      rw [Std.HashMap.contains_eq_isSome_getElem?, hk]
      rfl
    have heq : ch.withConstant k = ch := by
      unfold Chunk.withConstant
      rw [if_pos hin]
    rw [heq]
    exact ⟨fun _ _ hm => hm, hmax, hplaces k m hk, hplaces⟩
  | none =>
    simp only [hk] at h
    split at h
    · cases h
    next hroom =>
    cases h
    have hin : ¬ch.places.contains k = true := by
      rw [Std.HashMap.contains_eq_isSome_getElem?, hk]
      simp
    have heq : ch.withConstant k = { ch with
        constants := ch.constants.push k, places := ch.places.insert k ch.constants.size } := by
      unfold Chunk.withConstant
      rw [if_neg hin]
    have hold : ∀ (m : Nat) (k' : Constant), ch.constants[m]? = some k' →
        (ch.constants.push k)[m]? = some k' := fun m k' hm => by
      have hlt := (Array.getElem?_eq_some_iff.mp hm).1
      rw [Array.getElem?_push, if_neg (Nat.ne_of_lt hlt)]
      exact hm
    rw [heq]
    refine ⟨hold, ?_, by simp, fun k' m hm => ?_⟩
    · simp only [Array.size_push]
      omega
    · rw [Std.HashMap.getElem?_insert] at hm
      split at hm
      next hkk =>
        cases hm
        rw [← eq_of_beq hkk]
        simp
      · exact hold m k' (hplaces k' m hm)

/-- A scope with another pool that has all of the old one. -/
theorem step_pool {f : FunctionScope → FunctionScope} (ch : Chunk)
    (hf : f st.current = { st.current with proto := { st.current.proto with chunk := ch } })
    (hs : Sound Good ps st) (hcode : ch.code = st.current.proto.chunk.code)
    (hle : ∀ (m : Nat) (k : Constant), st.current.proto.chunk.constants[m]? = some k →
      ch.constants[m]? = some k)
    (hmax : ch.constants.size ≤ Chunk.maxConstants)
    (hplaces : ∀ (k : Constant) (m : Nat), ch.places[k]? = some m → ch.constants[m]? = some k) :
    Step Good ps st (st.mapCurrent f) st.top := by
  have hsize : ch.size = st.current.proto.chunk.size := congrArg Array.size hcode
  have hg : st.current.proto.Grows { st.current.proto with chunk := ch } := by
    refine ⟨Nat.le_refl _, hle, fun _ _ h => h, fun _ _ h => h, Nat.le_of_eq hsize.symm, ?_, rfl⟩
    intro m _
    simp only [Prototype.opcodeAt?, hcode]
  have hproto : ({ st.current.proto with chunk := ch } : Prototype).Sound Good ps := by
    refine ⟨hs.current.proto.registers, hmax, hplaces, ?_,
      fun q hq => hs.current.proto.children_of_grows hg hq⟩
    refine hs.current.proto.words_of_grows hg fun m i hi hm => .inl ⟨?_, hm⟩
    rw [← hcode]
    exact hi
  have hsettled := hg.landing hs.current.settled
  rw [← hsize] at hsettled
  have hcurrent : (f st.current).Sound Good ps := by
    rw [hf]
    exact hs.current.of_grows hg hproto hsettled rfl rfl hs.current.level hs.current.top
  refine ⟨hs.mapCurrent hcurrent (by rw [hf]), .mapCurrent hs.exists_scope ?_ (by rw [hf]), ?_⟩
  · rw [hf]
    refine ⟨⟨hg, rfl, rfl, rfl, fun m _ => by simp only [hcode]⟩, fun m i hm hi => ?_⟩
    exact absurd (Prototype.lt_size_of_word hi) (Nat.not_lt.mpr (hsize ▸ hm))
  · unfold State.top
    rw [State.current_mapCurrent hs.exists_scope, hf]

theorem addConstant_spec {k : Constant} (h : addConstant k st = .ok n st') (hs : Sound Good ps st) :
    Step Good ps st st' st.top ∧ st'.current.proto.chunk.constants[n]? = some k := by
  simp only [addConstant, bind_ok, scope_ok, and_assoc, exists_and_left, exists_eq_left] at h
  cases hplace : st.current.proto.chunk.placeOf k with
  | error e => simp only [hplace, bind_ok, throw_ok, and_false, exists_false] at h
  | ok place =>
    simp only [hplace, bind_ok, modifyScope_ok, pure_ok, exists_and_left, exists_eq_left,
      exists_const] at h
    obtain ⟨rfl, rfl⟩ := h
    have hproto := hs.current.proto
    obtain ⟨hle, hmax, hat, hplaces⟩ := withConstant_spec hplace hproto.constants hproto.places
    have hcode : (st.current.proto.chunk.withConstant k).code = st.current.proto.chunk.code := by
      unfold Chunk.withConstant
      split <;> rfl
    refine ⟨step_pool _ rfl hs hcode hle hmax hplaces, ?_⟩
    rw [State.current_mapCurrent hs.exists_scope]
    exact hat

theorem addConstant_step {k : Constant} (h : addConstant k st = .ok n st') (hs : Sound Good ps st) :
    Step Good ps st st' st.top ∧ n < st'.current.proto.chunk.constants.size := by
  obtain ⟨hstep, hat⟩ := addConstant_spec h hs
  exact ⟨hstep, (Array.getElem?_eq_some_iff.mp hat).1⟩

theorem constants_le (hs : Sound Good ps st) :
    st.current.proto.chunk.constants.size ≤ 65535 := hs.current.proto.constants

theorem keyPlace?_spec {key : String} {place : Option Nat} (h : keyPlace? key st = .ok place st')
    (hs : Sound Good ps st) :
    Step Good ps st st' st.top ∧ ∀ k, place = some k →
      k ≤ 255 ∧ st'.current.proto.chunk.constants[k]? = some (.str key) := by
  simp only [keyPlace?, bind_ok, pure_ok] at h
  obtain ⟨n, st₁, h, rfl, rfl⟩ := h
  obtain ⟨hstep, hat⟩ := addConstant_spec h hs
  refine ⟨hstep, fun k heq => ?_⟩
  split at heq
  · cases heq
    exact ⟨‹_›, hat⟩
  · cases heq

theorem keyPlace?_step {key : String} {place : Option Nat} (h : keyPlace? key st = .ok place st')
    (hs : Sound Good ps st) :
    Step Good ps st st' st.top ∧
      ∀ k, place = some k → k ≤ 255 ∧ k < st'.current.proto.chunk.constants.size := by
  obtain ⟨hstep, hat⟩ := keyPlace?_spec h hs
  exact ⟨hstep, fun k hk => ⟨(hat k hk).1, (Array.getElem?_eq_some_iff.mp (hat k hk).2).1⟩⟩

theorem emitConstant_step {r k : Nat} {u : Unit} (h : emitAbx .loadConstant r k st = .ok u st')
    (hs : Sound Good ps st) (hr : r < st.current.proto.registers)
    (hk : k < st.current.proto.chunk.constants.size) : Step Good ps st st' st.top := by
  obtain ⟨n, h⟩ := emitAbx_ok h
  have hmax := constants_le hs
  have hlimit : k ≤ Instruction.maxBx := by
    change k ≤ 65535
    omega
  exact emit_simple h hs (Instruction.opcode?_abx _) rfl
    (operandsFit_loadConstant hr hs.registers_le hk hlimit)

/-- A constant of the pool, loaded into a register. -/
theorem loadPool_step {k : Constant} {r : Nat} {u : Unit}
    (h : (do emitAbx .loadConstant r (← addConstant k) : Gen Unit) st = .ok u st')
    (hs : Sound Good ps st) (hr : r < st.top) : Step Good ps st st' st.top := by
  simp only [bind_ok] at h
  obtain ⟨place, st₁, hk, h⟩ := h
  obtain ⟨hstep, hlt⟩ := addConstant_step hk hs
  have htop := hs.top_le
  have hle := hstep.grows.registers
  exact (hstep.trans (emitConstant_step h hstep.sound (by omega) hlt)).cast hstep.top_eq

theorem loadConstant_step {r : Nat} {k : Constant} {u : Unit}
    (h : loadConstant r k st = .ok u st') (hs : Sound Good ps st) (hr : r < st.top) :
    Step Good ps st st' st.top := by
  have htop := hs.top_le
  have hmax := hs.registers_le
  unfold loadConstant at h
  split at h
  · refine emitRegisters_step h hs rfl (by simp) ⟨rfl, rfl⟩ (by omega) ?_
    simp only [Opcode.runs, List.mem_singleton]
    rintro run rfl
    exact hr
  · refine emitRegisters_step h hs rfl (by simp) ⟨rfl, rfl⟩ (by split <;> omega) ?_
    simp only [Opcode.runs, List.mem_singleton]
    rintro run rfl
    exact hr
  · exact loadPool_step h hs hr

theorem loadNils_step {r count : Nat} {u : Unit} (h : loadNils r count st = .ok u st')
    (hs : Sound Good ps st) (hr : r + count ≤ st.top) : Step Good ps st st' st.top := by
  have htop := hs.top_le
  have hmax := hs.registers_le
  refine emitRegisters_step h hs rfl (by simp) ⟨rfl, rfl⟩ (by omega) ?_
  simp only [Opcode.runs, List.mem_singleton]
  rintro run rfl
  exact hr

theorem padNils_step {count line : Nat} {u : Unit} (h : padNils count line st = .ok u st')
    (hs : Sound Good ps st) : Step Good ps st st' (st.top + count) := by
  simp only [padNils] at h
  split at h
  · simp only [bind_ok] at h
    obtain ⟨r, st₁, hr, h⟩ := h
    obtain ⟨hstep, rfl⟩ := reserve_step hr hs
    have htop := hstep.top_eq
    exact (hstep.trans (loadNils_step h hstep.sound (by omega))).cast htop
  · simp only [pure_ok] at h
    obtain ⟨-, rfl⟩ := h
    exact (Step.refl hs).cast (by omega)

/-! ## Jumps -/

theorem emitJump_step (h : emitJump st = .ok n st') (hs : Sound Good ps st) :
    Sound Good ps st' ∧ Keeps st st' ∧ st'.top = st.top ∧ n = st.current.proto.chunk.size ∧
      st'.current.proto.opcodeAt? n = some .jump := by
  obtain ⟨hn, hword, hsize⟩ := emit_word h hs
  have hop : (Instruction.ofSignedAx .jump 0).opcode? = some .jump :=
    Instruction.opcode?_ofSignedAx _ _
  have hjump : st'.current.proto.opcodeAt? n = some .jump :=
    Prototype.opcodeAt?_eq_some_iff.mpr ⟨_, hword, hop⟩
  have hoffset : (Instruction.ofSignedAx .jump 0).signedAx = 0 :=
    Instruction.signedAx_ofSignedAx _ (by decide)
  have hland : st'.current.proto.Landing (n + 1) := by
    refine ⟨Nat.le_of_eq hsize.symm, fun m hm heq => ?_⟩
    obtain rfl : n = m := by omega
    cases hjump.symm.trans heq
  refine ⟨emit_sound h hs hop (by simp) (fitsAt_jump hland ?_), emit_keeps h hs hop ?_,
    emit_top h hs, hn, hjump⟩
  · rw [hoffset, hn]
    omega
  · refine ⟨by simp, ?_, by simp, by simp⟩
    simp only [Instruction.targets, List.mem_singleton, hoffset]
    rintro t rfl
    omega

/-- A test of a register with the jump behind it. -/
theorem emitTest_step {r b : Nat} {u : Unit} (htest : emitAbc .test r b 0 st = .ok u st₁)
    (h : emitJump st₁ = .ok n st') (hs : Sound Good ps st) (hr : r < st.current.proto.registers)
    (hb : b < 256) :
    Sound Good ps st' ∧ Keeps st st' ∧ st'.top = st.top ∧ n = st.current.proto.chunk.size + 1 ∧
      st'.current.proto.opcodeAt? n = some .jump := by
  obtain ⟨m, htest⟩ := emitAbc_ok htest
  obtain ⟨hm, hword, hsize⟩ := emit_word htest hs
  have hop : (Instruction.abc .test r b 0).opcode? = some .test := Instruction.opcode?_abc _
  have hopen := emit_sound_open htest hs (by simp [hop])
  obtain ⟨hs', hk', htop', hn, hjump⟩ := emitJump_step h hopen
  have hnm : n = m + 1 := by omega
  subst hnm
  have hword' : st'.current.proto.chunk.code[m]? = some (Instruction.abc .test r b 0) :=
    (hk'.current.code m (by omega)).trans hword
  have hsettled := hs'.current.settled
  have hsize' : st'.current.proto.chunk.size = m + 2 := (emit_word h hopen).2.2
  have hmax := hs.registers_le
  have hrun : (Opcode.test.runs r b 0) = [(r, 1)] := rfl
  have hfit : (Instruction.abc .test r b 0).FitsAt st'.current.proto m .test := by
    refine ⟨?_, ?_, by simp, by simp, fun _ => hjump⟩
    · refine operandsFit_abc (.of_registers ?_ rfl rfl) (by omega) hb (by omega) (by simp) (by simp)
      have hg := ((emit_grows htest hs).trans hk'.current.grows).registers
      rw [hrun]
      simp only [List.mem_singleton]
      rintro run rfl
      exact .inr (by omega)
    · simp only [Instruction.targets, List.mem_singleton]
      rintro t rfl
      rw [hsize'] at hsettled
      exact ⟨m + 2, rfl, hsettled⟩
  have hsound : Sound Good ps st' :=
    ⟨hs'.exists_scope, { hs'.current with proto := hs'.current.proto.settle hword' hop hfit },
      hs'.nested⟩
  refine ⟨hsound, ⟨.prepend (emit_adds htest hs) hk'.current ?_,
    FunctionScope.widens_trans (emit_extends htest hs).outer hk'.outer,
    hk'.captured.trans (emit_extends htest hs).captured,
    hk'.given.trans (emit_extends htest hs).given⟩, htop'.trans (emit_top htest hs),
    by omega, hjump⟩
  intro j i hj hlt hi
  have hjm : j = m := by omega
  subst hjm
  cases hword'.symm.trans hi
  refine ⟨.test, hop, by simp, ?_, by simp, by simp⟩
  simp only [Instruction.targets, List.mem_singleton]
  rintro t rfl
  omega

/-! ## Patching -/

theorem patchWithin_ok {limit t : Nat} {f : Instruction → Int → Instruction} {u : Unit}
    (h : patchWithin limit n t f st = .ok u st') :
    (distance n t).natAbs ≤ limit ∧
      st' = st.mapCurrent fun s => s.patched n fun i => f i (distance n t) := by
  simp only [patchWithin] at h
  split at h
  next hd =>
    simp only [patch, modifyScope_ok] at h
    exact ⟨hd, h⟩
  · simp only [bind_ok, throw_ok, and_false, exists_false] at h

section Patching

variable {t : Nat} {u : Unit}

theorem patchJump_fits {p : Prototype} (ht : p.Landing t)
    (hd : (distance n t).natAbs ≤ Instruction.maxSignedAx) :
    (i.withSignedAx (distance n t)).FitsAt p n .jump := by
  refine fitsAt_jump ht ?_
  rw [Instruction.signedAx_withSignedAx i hd, distance]
  omega

theorem patchJump_sound (h : patchJump n t st = .ok u st') (hs : Sound Good ps st)
    (hn : st.current.proto.opcodeAt? n = some .jump) (ht : st.current.proto.Landing t) :
    Sound Good ps st' := by
  obtain ⟨hd, rfl⟩ := patchWithin_ok h
  obtain ⟨i, hi, hop⟩ := Prototype.opcodeAt?_eq_some_iff.mp hn
  have hf := Instruction.opcode?_withSignedAx i (d := distance n t)
  have hland := FunctionScope.landing_patched (f := fun i => i.withSignedAx (distance n t)) hi hf ht
  refine hs.mapCurrent ?_ rfl
  exact (hs.current.open' n).patched hi hop hf (patchJump_fits hland hd)

theorem patchJump_top (h : patchJump n t st = .ok u st') (hs : Sound Good ps st) :
    st'.top = st.top := by
  obtain ⟨-, rfl⟩ := patchWithin_ok h
  unfold State.top
  rw [State.current_mapCurrent hs.exists_scope]
  rfl

theorem patchJump_extends (h : patchJump n t st = .ok u st') (hs : Sound Good ps st)
    (hn : st.current.proto.opcodeAt? n = some .jump) : Extends st st' := by
  obtain ⟨-, rfl⟩ := patchWithin_ok h
  obtain ⟨i, hi, hop⟩ := Prototype.opcodeAt?_eq_some_iff.mp hn
  exact .mapCurrent hs.exists_scope
    ((FunctionScope.Extends.refl _).patched hi (Instruction.opcode?_withSignedAx i) (.inr hop)) rfl

/-- A jump of an expression to a word of the expression. -/
theorem patchJump_keeps (h : patchJump n t st = .ok u st') (hs : Sound Good ps st)
    (hn : st.current.proto.opcodeAt? n = some .jump) (ht : st.current.proto.Landing t)
    (hk : Keeps st₀ st) (hfirst : st₀.current.proto.chunk.size ≤ n)
    (htarget : st₀.current.proto.chunk.size ≤ t) : Keeps st₀ st' := by
  obtain ⟨hd, rfl⟩ := patchWithin_ok h
  obtain ⟨i, hi, hop⟩ := Prototype.opcodeAt?_eq_some_iff.mp hn
  have hf := Instruction.opcode?_withSignedAx i (d := distance n t)
  refine ⟨?_, ?_, hk.captured, (given_mapCurrent hs.exists_scope rfl).trans hk.given⟩
  · rw [State.current_mapCurrent hs.exists_scope]
    refine hk.current.patched hfirst hi hop hf ⟨by simp, ?_, by simp, by simp⟩
    simp only [Instruction.targets, List.mem_singleton]
    rintro t' rfl
    rw [Instruction.signedAx_withSignedAx i hd, distance]
    have hle := ht.le
    omega
  · rw [State.outer_mapCurrent]
    exact hk.outer

theorem patchJumpHere_ok (h : patchJumpHere n st = .ok u st') :
    patchJump n st.current.proto.chunk.size st = .ok u st' := by
  simpa only [patchJumpHere, bind_ok, here_ok, and_assoc, exists_and_left, exists_eq_left] using h

end Patching

end Generator
end LuaMachine
