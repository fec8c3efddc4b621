import LuaMachine.Proofs.Generator.Expressions
import LuaMachine.Proofs.Lowering.Shapes
import LuaMachine.Proofs.Structured.Names
/-! # Words and where they end up

What an action of the compiler writes is found in the function once it is finished: the words at
their positions, the constants at their places, and the names where they were looked up. An action
is described by what it says about every function that has its words.

* `Lowering.Fits`: a function has the words that were written between two states.
* `Lowering.Emits`: what an action writes, with what it does to a sound state.
* `Lowering.emits_setLine`, `Lowering.emits_abc` and the like: single actions.
-/
set_option autoImplicit false

namespace LuaMachine
namespace Lowering

open Generator

/-- The words that were written between two states are words of `p`, with the constants that they
need, and names that were looked up are found as `home` says. -/
structure Fits (p : Prototype) (home : String → Home) (st st' : State) : Prop where
  words : ∀ n, st.size ≤ n → n < st'.size →
    p.chunk.code[n]? = st'.current.proto.chunk.code[n]?
  constants : ∀ (n : Nat) (k : Constant), st'.current.proto.chunk.constants[n]? = some k →
    p.chunk.constants[n]? = some k
  homes : ∀ name, LookedUp name st' → home name = st'.current.home name

/-- A sound state after an action that says `P` of the functions with its words. -/
structure Emits (Good : Prototype → Prop) (ps : List Nat) (st st' : State) (t : Nat)
    (P : Prototype → (String → Home) → Prop) : Prop where
  step : Step Good ps st st' t
  code : ∀ p home, Fits p home st st' → P p home

variable {Good : Prototype → Prop} {ps ps' : List Nat} {st st' st₁ st₂ st₃ : State}
  {t t' n r a b c line : Nat} {u : Unit} {op : Opcode} {P Q : Prototype → (String → Home) → Prop}
  {p : Prototype} {home : String → Home} {k : Constant} {name : String}

namespace Fits

theorem upTo (h : Fits p home st st') (hs : Sound Good ps' st₁) (hstep : Step Good ps st₁ st' t) :
    Fits p home st st₁ where
  words n hn hlt :=
    (h.words n hn (Nat.lt_of_lt_of_le hlt hstep.grows.size)).trans (hstep.keeps.current.code n hlt)
  constants n k hk := h.constants n k (hstep.grows.constants n k hk)
  homes name hname := by
    obtain ⟨hlooked, hhome⟩ := hname.step hs hstep
    rw [h.homes name hlooked, hhome]

theorem since (h : Fits p home st st') (hle : st.size ≤ st₁.size) : Fits p home st₁ st' :=
  ⟨fun n hn => h.words n (Nat.le_trans hle hn), h.constants, h.homes⟩

/-- The word that was written at a position. -/
theorem word (h : Fits p home st st') {i : Instruction} (hn : st.size ≤ n)
    (hi : st'.current.proto.chunk.code[n]? = some i) : p.chunk.code[n]? = some i :=
  (h.words n hn (Prototype.lt_size_of_word hi)).trans hi

/-- A word that was there before the target of a jump was filled in. -/
theorem word_unpatched {target m : Nat} {i : Instruction} (h : Fits p home st st')
    (hs : Sound Good ps st₁) (hpatch : patchJump n target st₁ = .ok u st') (hm : st.size ≤ m)
    (hne : m ≠ n) (hi : st₁.current.proto.chunk.code[m]? = some i) :
    p.chunk.code[m]? = some i := by
  have hsize := patchJump_size hpatch hs
  have hword := h.words m hm (hsize ▸ Prototype.lt_size_of_word hi)
  obtain ⟨-, rfl⟩ := patchWithin_ok hpatch
  rw [State.current_mapCurrent hs.exists_scope, FunctionScope.code_patched_ne hne] at hword
  exact hword.trans hi

theorem jump {target : Nat} (h : Fits p home st st') (hs : Sound Good ps st₁)
    (hpatch : patchJump n target st₁ = .ok u st')
    (hop : st₁.current.proto.opcodeAt? n = some .jump) (hle : st.size ≤ n) :
    p.HasJump n target := by
  have hsize := patchJump_size hpatch hs
  obtain ⟨i, hi, hjump⟩ := Prototype.opcodeAt?_eq_some_iff.mp hop
  have hword := h.words n hle (hsize ▸ Prototype.lt_size_of_word hi)
  obtain ⟨hd, rfl⟩ := patchWithin_ok hpatch
  rw [State.current_mapCurrent hs.exists_scope, FunctionScope.code_patched hi] at hword
  refine ⟨_, hword, (Instruction.opcode?_withSignedAx i).trans hjump, ?_⟩
  rw [Instruction.signedAx_withSignedAx i hd, distance]
  omega

/-- What was written at one side of a jump is there too when its target is filled in. -/
theorem unpatched {target : Nat} (h : Fits p home st st') (hs : Sound Good ps st₁)
    (hpatch : patchJump n target st₁ = .ok u st') (hs₃ : Sound Good ps' st₃)
    (hstep : Step Good ps st₃ st₁ t) (hle : st.size ≤ st₂.size)
    (hout : n < st₂.size ∨ st₃.size ≤ n) : Fits p home st₂ st₃ := by
  refine ⟨fun m hm hlt => ?_, fun m k hk => ?_, fun name hname => ?_⟩
  · have hcode := hstep.keeps.current.code m hlt
    cases hi : st₃.current.proto.chunk.code[m]? with
    | some i => exact h.word_unpatched hs hpatch (by omega) (by omega) (hcode.trans hi)
    | none =>
      have hge : st₃.current.proto.chunk.code.size ≤ m := Array.getElem?_eq_none_iff.mp hi
      exact absurd hlt (Nat.not_lt.mpr hge)
  · have hconstant := hstep.grows.constants m k hk
    obtain ⟨-, rfl⟩ := patchWithin_ok hpatch
    refine h.constants m k ?_
    rw [State.current_mapCurrent hs.exists_scope]
    exact hconstant
  · obtain ⟨hlooked, hhome⟩ := hname.step hs₃ hstep
    obtain ⟨-, rfl⟩ := patchWithin_ok hpatch
    have hsame := h.homes name fun hglobal => ?_
    · rw [State.current_mapCurrent hs.exists_scope] at hsame
      exact hsame.trans hhome
    · rw [State.current_mapCurrent hs.exists_scope] at hglobal
      have hunknown := hlooked hglobal
      rw [State.scopes_eq hs.exists_scope] at hunknown
      rw [State.scopes_eq (State.scopes_mapCurrent_ne hs.exists_scope),
        State.current_mapCurrent hs.exists_scope, State.outer_mapCurrent]
      exact ⟨hunknown.locals, fun s hmem => by
        rcases List.mem_cons.mp hmem with rfl | hmem
        · exact (hunknown.upvalues st₁.current List.mem_cons_self :)
        · exact hunknown.upvalues s (List.mem_cons_of_mem _ hmem)⟩

end Fits

namespace Emits

theorem mono (h : Emits Good ps st st' t P) (hPQ : ∀ p home, P p home → Q p home) :
    Emits Good ps st st' t Q :=
  ⟨h.step, fun p home hf => hPQ p home (h.code p home hf)⟩

theorem cast (h : Emits Good ps st st' t P) (ht : t = t') : Emits Good ps st st' t' P :=
  ⟨h.step.cast ht, h.code⟩

theorem refl (hs : Sound Good ps st) : Emits Good ps st st st.top fun _ _ => True :=
  ⟨.refl hs, fun _ _ _ => trivial⟩

/-- One action after the other. -/
theorem trans (h : Emits Good ps st st₁ t P) (h' : Emits Good ps st₁ st' t' Q) :
    Emits Good ps st st' t' fun p home => P p home ∧ Q p home where
  step := h.step.trans h'.step
  code p home hf :=
    ⟨h.code p home (hf.upTo h.step.sound h'.step), h'.code p home (hf.since h.step.grows.size)⟩

theorem sound (h : Emits Good ps st st' t P) : Sound Good ps st' := h.step.sound

theorem top_eq (h : Emits Good ps st st' t P) : st'.top = t := h.step.top_eq

end Emits

/-! ## Actions that write no words -/

theorem emits_silent (hstep : Step Good ps st st' t) (hsize : st'.size = st.size) :
    Emits Good ps st st' t fun _ _ => st'.size = st.size :=
  ⟨hstep, fun _ _ _ => hsize⟩

theorem emits_setLine (h : setLine line st = .ok u st') (hs : Sound Good ps st) :
    Emits Good ps st st' st.top fun _ _ => st'.size = st.size :=
  emits_silent (setLine_step h hs) (setLine_size h)

theorem emits_reserve {count : Nat} (h : reserve count line st = .ok r st')
    (hs : Sound Good ps st) :
    Emits Good ps st st' (st.top + count) (fun _ _ => st'.size = st.size) ∧ r = st.top :=
  ⟨emits_silent (reserve_step h hs).1 (reserve_size h hs), (reserve_step h hs).2⟩

theorem emits_release (h : release r st = .ok u st') (hs : Sound Good ps st) :
    Emits Good ps st st' r fun _ _ => st'.size = st.size :=
  emits_silent (release_step h hs).1 (release_size h hs)

theorem emits_releaseAbove (h : releaseAbove r st = .ok u st') (hs : Sound Good ps st) :
    Emits Good ps st st' (min r st.top) fun _ _ => st'.size = st.size :=
  emits_silent (releaseAbove_step h hs) (releaseAbove_size h hs)

theorem emits_addConstant (h : addConstant k st = .ok n st') (hs : Sound Good ps st) :
    Emits Good ps st st' st.top (fun p _ => st'.size = st.size ∧
      p.chunk.constants[n]? = some k) ∧ n < st'.current.proto.chunk.constants.size := by
  obtain ⟨hstep, hat⟩ := addConstant_spec h hs
  exact ⟨⟨hstep, fun p home hf => ⟨addConstant_size h hs, hf.constants _ _ hat⟩⟩,
    (Array.getElem?_eq_some_iff.mp hat).1⟩

theorem emits_keyPlace? {key : String} {place : Option Nat} (h : keyPlace? key st = .ok place st')
    (hs : Sound Good ps st) :
    Emits Good ps st st' st.top (fun p _ => st'.size = st.size ∧
      ∀ k, place = some k → p.chunk.constants[k]? = some (.str key)) ∧
      ∀ k, place = some k → k ≤ 255 ∧ k < st'.current.proto.chunk.constants.size := by
  obtain ⟨hstep, hat⟩ := keyPlace?_spec h hs
  refine ⟨⟨hstep, fun p home hf => ⟨keyPlace?_size h hs, fun k hk => ?_⟩⟩, fun k hk => ?_⟩
  · exact hf.constants _ _ (hat k hk).2
  · exact ⟨(hat k hk).1, (Array.getElem?_eq_some_iff.mp (hat k hk).2).1⟩

theorem emits_fieldPlace? {key : Expr} {place : Option Nat}
    (h : fieldPlace? key st = .ok place st') (hs : Sound Good ps st) :
    Emits Good ps st st' st.top (fun p _ => st'.size = st.size ∧
      ∀ k, place = some k →
        ∃ s line, key = .str s line ∧ p.chunk.constants[k]? = some (.str s)) ∧
      ∀ k, place = some k → k ≤ 255 ∧ k < st'.current.proto.chunk.constants.size := by
  obtain ⟨hstep, hat⟩ := fieldPlace?_spec h hs
  refine ⟨⟨hstep, fun p home hf => ⟨fieldPlace?_size h hs, fun k hk => ?_⟩⟩, fun k hk => ?_⟩
  · obtain ⟨-, s, line, hkey, hconstant⟩ := hat k hk
    exact ⟨s, line, hkey, hf.constants _ _ hconstant⟩
  · obtain ⟨hle, s, line, -, hconstant⟩ := hat k hk
    exact ⟨hle, (Array.getElem?_eq_some_iff.mp hconstant).1⟩

theorem emits_resolve {reference : Reference} (h : resolve name line st = .ok reference st')
    (hs : Sound Good ps st) :
    Emits Good ps st st' st.top fun _ home =>
      st'.size = st.size ∧ home name = reference.home := by
  obtain ⟨hlooked, hhome⟩ := resolve_lookedUp h hs
  exact ⟨(resolve_step h hs).1, fun p home hf =>
    ⟨congrArg Chunk.size (resolve_chunk h hs), (hf.homes name hlooked).trans hhome⟩⟩

/-! ## Words -/

theorem hasWord_emitted (he : emitAbc op a b c st = .ok u st₁) (hs : Sound Good ps st)
    (hcode : ∀ m < st₁.size, st'.current.proto.chunk.code[m]? = st₁.current.proto.chunk.code[m]?)
    (ha : a < 256) (hb : b < 256) (hc : c < 256) (hf : Fits p home st st') :
    p.HasWord st.size op a b c := by
  obtain ⟨n, he⟩ := emitAbc_ok he
  obtain ⟨rfl, hword, hsize⟩ := emit_word he hs
  have hlt : st.size < st₁.size := by
    have hsize' : st₁.size = st.size + 1 := hsize
    omega
  exact ⟨_, hf.word (Nat.le_refl _) ((hcode _ hlt).trans hword), Instruction.opcode?_abc op,
    Instruction.a_abc op ha, Instruction.b_abc op hb, Instruction.c_abc op hc⟩

theorem emitAbc_size (h : emitAbc op a b c st = .ok u st') (hs : Sound Good ps st) :
    st'.size = st.size + 1 := by
  obtain ⟨n, h⟩ := emitAbc_ok h
  obtain ⟨rfl, -, hsize⟩ := emit_word h hs
  exact hsize

theorem emits_abc (he : emitAbc op a b c st = .ok u st') (hs : Sound Good ps st)
    (hstep : Step Good ps st st' t) (ha : a < 256) (hb : b < 256) (hc : c < 256) :
    Emits Good ps st st' t fun p _ => p.HasWord st.size op a b c ∧ st'.size = st.size + 1 :=
  ⟨hstep, fun _ _ hf =>
    ⟨hasWord_emitted he hs (fun _ _ => rfl) ha hb hc hf, emitAbc_size he hs⟩⟩

theorem emits_abx (he : emitAbx op a n st = .ok u st') (hs : Sound Good ps st)
    (hstep : Step Good ps st st' t) (ha : a < 256) (hn : n ≤ Instruction.maxBx) :
    Emits Good ps st st' t fun p _ => p.HasWide st.size op a n ∧ st'.size = st.size + 1 := by
  obtain ⟨m, he⟩ := emitAbx_ok he
  obtain ⟨rfl, hword, hsize⟩ := emit_word he hs
  exact ⟨hstep, fun p home hf => ⟨⟨_, hf.word (Nat.le_refl _) hword, Instruction.opcode?_abx op,
    Instruction.a_abx op ha, Instruction.bx_abx op hn⟩, hsize⟩⟩

theorem emits_move (h : emitAbc .move a b 0 st = .ok u st') (hs : Sound Good ps st)
    (ha : a < st.top) (hb : b < st.top) :
    Emits Good ps st st' st.top fun p _ =>
      p.HasWord st.size .move a b 0 ∧ st'.size = st.size + 1 := by
  have htop := hs.top_le
  have hmax := hs.registers_le
  exact emits_abc h hs (emitMove_step h hs ha hb) (by omega) (by omega) (by omega)

/-- A test and the jump behind it, which is still to be filled in. -/
theorem test_words {value : Nat} (htest : emitAbc .test r value 0 st = .ok u st₁)
    (hjump : emitJump st₁ = .ok n st') (hs : Sound Good ps st) (hr : r < 256)
    (hvalue : value < 256) :
    n = st.size + 1 ∧ st'.size = st.size + 2 ∧
      ∃ i, st'.current.proto.chunk.code[st.size]? = some i ∧ i.opcode? = some .test ∧ i.a = r ∧
        i.b = value ∧ i.c = 0 := by
  obtain ⟨k, htest⟩ := emitAbc_ok htest
  have hop : (Instruction.abc .test r value 0).opcode? = some .test := Instruction.opcode?_abc _
  have hopen := emit_sound_open htest hs (by simp [hop])
  obtain ⟨rfl, hword, hsize₁⟩ := emit_word htest hs
  obtain ⟨rfl, -, hsize⟩ := emit_word hjump hopen
  have hadds := (emit_adds hjump hopen).code st.size (by rw [hsize₁]; exact Nat.lt_succ_self _)
  refine ⟨hsize₁, by rw [State.size, hsize, hsize₁], _, hadds.trans hword, hop,
    Instruction.a_abc _ hr, Instruction.b_abc _ hvalue, Instruction.c_abc _ (by omega)⟩

/-! ## Constants -/

theorem emits_loadPool
    (h : (do emitAbx .loadConstant r (← addConstant k) : Gen Unit) st = .ok u st')
    (hs : Sound Good ps st) (hr : r < st.top) :
    Emits Good ps st st' st.top fun p _ => (∃ x, p.HasWide st.size .loadConstant r x ∧
      p.chunk.constants[x]? = some k) ∧ st'.size = st.size + 1 := by
  simp only [bind_ok] at h
  obtain ⟨x, st₁, hk, h⟩ := h
  obtain ⟨hfirst, hlt⟩ := emits_addConstant hk hs
  have htop := hs.top_le
  have hmax := hs.registers_le
  have hgrow := hfirst.step.grows.registers
  have hlimit := constants_le hfirst.sound
  have hle : x ≤ Instruction.maxBx := Nat.le_of_lt (Nat.lt_of_lt_of_le hlt hlimit)
  have hsecond := emits_abx h hfirst.sound
    (emitConstant_step h hfirst.sound (by omega) hlt) (by omega) hle
  refine ((hfirst.trans hsecond).cast hfirst.top_eq).mono fun p home hp => ?_
  obtain ⟨⟨hsize, hconstant⟩, hword, hsize'⟩ := hp
  rw [hsize] at hword hsize'
  exact ⟨⟨x, hword, hconstant⟩, hsize'⟩

theorem emits_loadConstant (h : loadConstant r k st = .ok u st') (hs : Sound Good ps st)
    (hr : r < st.top) :
    Emits Good ps st st' st.top fun p _ => p.Loads st.size r k ∧ st'.size = st.size + 1 := by
  have htop := hs.top_le
  have hmax := hs.registers_le
  have hstep := loadConstant_step h hs hr
  unfold loadConstant at h
  split at h
  · exact emits_abc h hs hstep (by omega) (by omega) (by omega)
  next value => exact emits_abc h hs hstep (by omega) (by split <;> omega) (by omega)
  next hnil hbool =>
    refine (emits_loadPool h hs hr).mono fun p _ hp => ?_
    cases k with
    | nil => exact absurd rfl hnil
    | bool value => exact absurd rfl (hbool value)
    | _ => exact hp

end Lowering
end LuaMachine
