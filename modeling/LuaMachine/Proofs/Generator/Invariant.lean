import LuaMachine.Proofs.Code.Growth
import LuaMachine.Proofs.Generator.Actions
import LuaMachine.Proofs.Generator.Lookup
/-! # The invariant of compiling

Between any two actions of the compiler the innermost scope has its variables in the registers from
0 on, its temporary values above them, and all of these within the registers of the function; the
code that is written fits the function except at some open positions.

* `FunctionScope.Sound`, `Generator.Sound`: the invariant of a scope and of a state.
* `FunctionScope.Keeps`, `Generator.Keeps`: what an expression leaves as it was, and that its words
  stay among themselves.
* `Generator.Step`: both, with the number of registers that are in use afterwards.
* `FunctionScope.Extends`, `Generator.Extends`: what a statement leaves as it was.
-/
set_option autoImplicit false

namespace LuaMachine

/-! ## Scopes -/

structure ScopeBlock.Sound (p : Prototype) (b : ScopeBlock) : Prop where
  captured : b.hasCaptured = true → b.level < p.registers
  labels : ∀ l ∈ b.labels, p.Landing l.position
  gotos : ∀ g ∈ b.gotos, p.opcodeAt? g.position = some .jump ∧
    ∀ r, g.highestCaptured = some r → r < p.registers
  breaks : ∀ n ∈ b.breaks, p.opcodeAt? n = some .jump

theorem ScopeBlock.Sound.grows {p p' : Prototype} {b : ScopeBlock} (h : b.Sound p)
    (hg : p.Grows p') : b.Sound p' where
  captured hc := Nat.lt_of_lt_of_le (h.captured hc) hg.registers
  labels l hl := hg.landing (h.labels l hl)
  gotos g hmem :=
    ⟨hg.opcodeAt? (h.gotos g hmem).1,
      fun r hr => Nat.lt_of_lt_of_le ((h.gotos g hmem).2 r hr) hg.registers⟩
  breaks n hn := hg.opcodeAt? (h.breaks n hn)

/-- Only jumps are changed once they are written. -/
def Instruction.Becomes (i i' : Instruction) : Prop :=
  i' = i ∨ i.opcode? = some .jump ∧ i'.opcode? = some .jump

theorem Instruction.Becomes.trans {i i' i'' : Instruction} (h : i.Becomes i')
    (h' : i'.Becomes i'') : i.Becomes i'' := by
  rcases h with rfl | ⟨hi, hi'⟩
  · exact h'
  · rcases h' with rfl | ⟨-, hi''⟩
    · exact .inr ⟨hi, hi'⟩
    · exact .inr ⟨hi, hi''⟩

namespace FunctionScope

structure Sound (Good : Prototype → Prop) (ps : List Nat) (s : FunctionScope) : Prop where
  proto : s.proto.Sound Good ps
  settled : s.proto.Landing s.proto.chunk.size
  locals : ∀ (n : Nat) (l : Local), s.locals[n]? = some l → l.register = n
  level : (s.locals.size : Int) ≤ s.free
  top : s.free ≤ s.proto.registers
  blocks : ∀ b ∈ s.blocks, b.Sound s.proto ∧ b.level ≤ s.locals.size
  nested : s.blocks.Pairwise fun inner outer => outer.level ≤ inner.level

/-- A word of an expression: it neither leaves the function nor closes variables, it goes to words
of the expression only, calls happen above the variables, and closures take captured ones. -/
structure PlainWord (s : FunctionScope) (first stop n : Nat) (i : Instruction) (op : Opcode) :
    Prop where
  plain : op ≠ .close ∧ op ≠ .ret ∧ op ≠ .forPrepare ∧ op ≠ .forLoop ∧ op ≠ .iterCall ∧
    op ≠ .iterLoop
  target : ∀ t ∈ i.targets n op, (first : Int) ≤ t ∧ t ≤ stop
  call : op = .call → s.locals.size ≤ i.a
  closure : op = .closure → ∃ q, s.proto.children[i.bx]? = some q ∧
    ∀ u ∈ q.upvalues, u.fromRegister = true → ∃ l ∈ s.locals, l.captured = true ∧ l.register = u.index

/-- Words are added, and variables, blocks and the words before stay. -/
structure Adds (s s' : FunctionScope) : Prop where
  grows : s.proto.Grows s'.proto
  locals : s'.locals = s.locals
  blocks : s'.blocks = s.blocks
  ranges : s'.proto.locals = s.proto.locals
  code : ∀ n < s.proto.chunk.size, s'.proto.chunk.code[n]? = s.proto.chunk.code[n]?

/-- What compiling an expression does to its scope. -/
structure Keeps (s s' : FunctionScope) : Prop extends Adds s s' where
  words : ∀ (n : Nat) (i : Instruction), s.proto.chunk.size ≤ n → s'.proto.chunk.code[n]? = some i →
    ∃ op, i.opcode? = some op ∧ s'.PlainWord s.proto.chunk.size s'.proto.chunk.size n i op

/-- What compiling a statement does to its scope: it declares variables behind the others, and of
the words before it, it changes jumps only. -/
structure Extends (s s' : FunctionScope) : Prop where
  grows : s.proto.Grows s'.proto
  locals : ∃ more, s'.locals = s.locals ++ more
  blocks : List.Forall₂ (fun b b' : ScopeBlock => b'.level = b.level ∧ b'.isLoop = b.isLoop)
    s.blocks s'.blocks
  words : ∀ (n : Nat) (i : Instruction), s.proto.chunk.code[n]? = some i →
    ∃ i', s'.proto.chunk.code[n]? = some i' ∧ i.Becomes i'

section

variable {Good : Prototype → Prop} {ps : List Nat} {s s' s'' : FunctionScope}

theorem Sound.register_lt (h : s.Sound Good ps) {l : Local} (hl : l ∈ s.locals) :
    l.register < s.locals.size := by
  obtain ⟨n, hn, rfl⟩ := Array.mem_iff_getElem.mp hl
  rw [h.locals n _ (Array.getElem?_eq_getElem hn)]
  exact hn

theorem Sound.local_lt (h : s.Sound Good ps) {l : Local} (hl : l ∈ s.locals) :
    l.register < s.proto.registers := by
  have hlt := h.register_lt hl
  have hlevel := h.level
  have htop := h.top
  omega

theorem PlainWord.mono {first stop stop' n : Nat} {i : Instruction} {op : Opcode}
    (h : s.PlainWord first stop n i op) (hg : s.proto.Grows s'.proto) (hl : s'.locals = s.locals)
    (hstop : stop ≤ stop') : s'.PlainWord first stop' n i op where
  plain := h.plain
  target t ht := by
    have hbound := h.target t ht
    omega
  call hop := by
    rw [hl]
    exact h.call hop
  closure hop := by
    obtain ⟨q, hq, hsources⟩ := h.closure hop
    rw [hl]
    exact ⟨q, hg.children _ _ hq, hsources⟩

theorem PlainWord.lower {first first' stop n : Nat} {i : Instruction} {op : Opcode}
    (h : s.PlainWord first stop n i op) (hfirst : first' ≤ first) :
    s.PlainWord first' stop n i op :=
  { h with
    target := fun t ht => by
      have hbound := h.target t ht
      omega }

namespace Keeps

theorem refl (s : FunctionScope) : s.Keeps s where
  grows := .refl _
  locals := rfl
  blocks := rfl
  ranges := rfl
  code _ _ := rfl
  words _ _ hn hi := absurd (Prototype.lt_size_of_word hi) (Nat.not_lt.mpr hn)

/-- Words before those of an expression that belong to it as well. -/
theorem prepend (h : s.Adds s') (h' : s'.Keeps s'')
    (hwords : ∀ (n : Nat) (i : Instruction), s.proto.chunk.size ≤ n → n < s'.proto.chunk.size →
      s''.proto.chunk.code[n]? = some i →
      ∃ op, i.opcode? = some op ∧ s''.PlainWord s.proto.chunk.size s''.proto.chunk.size n i op) :
    s.Keeps s'' where
  grows := h.grows.trans h'.grows
  locals := h'.locals.trans h.locals
  blocks := h'.blocks.trans h.blocks
  ranges := h'.ranges.trans h.ranges
  code n hn := (h'.code n (Nat.lt_of_lt_of_le hn h.grows.size)).trans (h.code n hn)
  words n i hn hi := by
    rcases Nat.lt_or_ge n s'.proto.chunk.size with hlt | hge
    · exact hwords n i hn hlt hi
    · obtain ⟨op, hop, hw⟩ := h'.words n i hge hi
      exact ⟨op, hop, hw.lower h.grows.size⟩

theorem trans (h : s.Keeps s') (h' : s'.Keeps s'') : s.Keeps s'' :=
  prepend h.toAdds h' fun n i hn hlt hi => by
    rw [h'.code n hlt] at hi
    obtain ⟨op, hop, hw⟩ := h.words n i hn hi
    exact ⟨op, hop, hw.mono h'.grows h'.locals h'.grows.size⟩

theorem size_le (h : s.Keeps s') : s.proto.chunk.size ≤ s'.proto.chunk.size := h.grows.size

end Keeps

namespace Extends

theorem refl (s : FunctionScope) : s.Extends s where
  grows := .refl _
  locals := ⟨#[], by simp⟩
  blocks := List.forall₂_same.mpr fun _ _ => ⟨rfl, rfl⟩
  words _ i hi := ⟨i, hi, .inl rfl⟩

theorem trans (h : s.Extends s') (h' : s'.Extends s'') : s.Extends s'' where
  grows := h.grows.trans h'.grows
  locals := by
    obtain ⟨more, hm⟩ := h.locals
    obtain ⟨more', hm'⟩ := h'.locals
    exact ⟨more ++ more', by rw [hm', hm, Array.append_assoc]⟩
  blocks := forall₂_trans (fun _ _ _ hb hb' => ⟨hb'.1.trans hb.1, hb'.2.trans hb.2⟩) h.blocks h'.blocks
  words n i hi := by
    obtain ⟨i', hi', hb⟩ := h.words n i hi
    obtain ⟨i'', hi'', hb'⟩ := h'.words n i' hi'
    exact ⟨i'', hi'', hb.trans hb'⟩

/-- A word that is no jump stays. -/
theorem word_eq (h : s.Extends s') {n : Nat} {i : Instruction}
    (hi : s.proto.chunk.code[n]? = some i) (hop : i.opcode? ≠ some .jump) :
    s'.proto.chunk.code[n]? = some i := by
  obtain ⟨i', hi', rfl | ⟨hjump, -⟩⟩ := h.words n i hi
  · exact hi'
  · exact absurd hjump hop

end Extends

theorem Adds.trans (h : s.Adds s') (h' : s'.Adds s'') : s.Adds s'' where
  grows := h.grows.trans h'.grows
  locals := h'.locals.trans h.locals
  blocks := h'.blocks.trans h.blocks
  ranges := h'.ranges.trans h.ranges
  code n hn := (h'.code n (Nat.lt_of_lt_of_le hn h.grows.size)).trans (h.code n hn)

theorem Adds.extends (h : s.Adds s') : s.Extends s' where
  grows := h.grows
  locals := ⟨#[], by rw [h.locals, Array.append_empty]⟩
  blocks := h.blocks ▸ (Extends.refl s).blocks
  words n i hi := ⟨i, (h.code n (Prototype.lt_size_of_word hi)).trans hi, .inl rfl⟩

/-- A scope whose prototype grew, with its variables and blocks as they were. -/
theorem Sound.of_grows {ps' : List Nat} (h : s.Sound Good ps) (hg : s.proto.Grows s'.proto)
    (hproto : s'.proto.Sound Good ps') (hsettled : s'.proto.Landing s'.proto.chunk.size)
    (hl : s'.locals = s.locals) (hb : s'.blocks = s.blocks)
    (hlevel : (s.locals.size : Int) ≤ s'.free) (htop : s'.free ≤ s'.proto.registers) :
    s'.Sound Good ps' where
  proto := hproto
  settled := hsettled
  locals := hl ▸ h.locals
  level := hl ▸ hlevel
  top := htop
  blocks b hmem := by
    rw [hb] at hmem
    rw [hl]
    exact ⟨(h.blocks b hmem).1.grows hg, (h.blocks b hmem).2⟩
  nested := hb ▸ h.nested

end

end FunctionScope

/-! ## States -/

namespace Generator

structure Sound (Good : Prototype → Prop) (ps : List Nat) (st : State) : Prop where
  exists_scope : st.scopes ≠ []
  current : st.current.Sound Good ps
  nested : FunctionScope.Nested st.scopes

structure Keeps (st st' : State) : Prop where
  current : st.current.Keeps st'.current
  outer : List.Forall₂ FunctionScope.Widens st.outer st'.outer
  captured : st'.captured = st.captured
  given : FunctionScope.given st'.scopes = FunctionScope.given st.scopes

/-- A sound state after some expressions or parts of one, with `top` registers in use. -/
structure Step (Good : Prototype → Prop) (ps : List Nat) (st st' : State) (top : Nat) : Prop where
  sound : Sound Good ps st'
  keeps : Keeps st st'
  top_eq : st'.top = top

structure Extends (st st' : State) : Prop where
  current : st.current.Extends st'.current
  outer : List.Forall₂ FunctionScope.Widens st.outer st'.outer
  captured : st'.captured = st.captured
  given : FunctionScope.given st'.scopes = FunctionScope.given st.scopes

variable {Good : Prototype → Prop} {ps ps' : List Nat} {st st' st'' : State} {t t' : Nat}

namespace Sound

theorem level_le (h : Sound Good ps st) : st.level ≤ st.top := by
  have hlevel := h.current.level
  unfold State.level State.top
  omega

theorem free_eq (h : Sound Good ps st) : st.current.free = st.top := by
  have hlevel := h.current.level
  unfold State.top
  omega

theorem top_le (h : Sound Good ps st) : st.top ≤ st.current.proto.registers := by
  have htop := h.current.top
  have hfree := h.free_eq
  omega

theorem registers_le (h : Sound Good ps st) : st.current.proto.registers ≤ 250 :=
  h.current.proto.registers

/-- Changing the innermost scope but for its upvalues. -/
theorem mapCurrent {f : FunctionScope → FunctionScope} (h : Sound Good ps st)
    (hf : (f st.current).Sound Good ps')
    (hup : (f st.current).proto.upvalues = st.current.proto.upvalues) :
    Sound Good ps' (st.mapCurrent f) where
  exists_scope := State.scopes_mapCurrent_ne h.exists_scope
  current := by
    rw [State.current_mapCurrent h.exists_scope]
    exact hf
  nested := by
    have hn := h.nested
    rw [State.scopes_eq h.exists_scope] at hn
    rw [State.scopes_eq (State.scopes_mapCurrent_ne h.exists_scope),
      State.current_mapCurrent h.exists_scope, State.outer_mapCurrent]
    cases hn with
    | cons registers limit sources nested =>
      refine .cons (fun l hl => hf.local_lt hl) ?_ ?_ nested
      · rw [hup]
        exact limit
      · rw [hup]
        exact sources

end Sound

theorem given_mapCurrent {f : FunctionScope → FunctionScope} (hs : st.scopes ≠ [])
    (hup : (f st.current).proto.upvalues = st.current.proto.upvalues) :
    FunctionScope.given (st.mapCurrent f).scopes = FunctionScope.given st.scopes := by
  rw [State.mapCurrent, State.scopes_eq hs]
  exact FunctionScope.given_cons rfl (FunctionScope.widens_refl _) fun _ => hup

namespace Keeps

theorem refl (st : State) : Keeps st st := ⟨.refl _, FunctionScope.widens_refl _, rfl, rfl⟩

theorem trans (h : Keeps st st') (h' : Keeps st' st'') : Keeps st st'' :=
  ⟨h.current.trans h'.current, FunctionScope.widens_trans h.outer h'.outer,
    h'.captured.trans h.captured, h'.given.trans h.given⟩

theorem mapCurrent {f : FunctionScope → FunctionScope} (hs : st.scopes ≠ [])
    (h : st.current.Keeps (f st.current))
    (hup : (f st.current).proto.upvalues = st.current.proto.upvalues) :
    Keeps st (st.mapCurrent f) where
  current := by
    rw [State.current_mapCurrent hs]
    exact h
  outer := by
    rw [State.outer_mapCurrent]
    exact FunctionScope.widens_refl _
  captured := rfl
  given := given_mapCurrent hs hup

theorem level (h : Keeps st st') : st'.level = st.level := by
  unfold State.level
  rw [h.current.locals]

end Keeps

namespace Step

theorem refl (h : Sound Good ps st) : Step Good ps st st st.top := ⟨h, .refl st, rfl⟩

theorem trans (h : Step Good ps st st' t) (h' : Step Good ps st' st'' t') :
    Step Good ps st st'' t' :=
  ⟨h'.sound, h.keeps.trans h'.keeps, h'.top_eq⟩

theorem cast (h : Step Good ps st st' t) (ht : t = t') : Step Good ps st st' t' :=
  ⟨h.sound, h.keeps, h.top_eq.trans ht⟩

theorem level (h : Step Good ps st st' t) : st'.level = st.level := h.keeps.level

theorem grows (h : Step Good ps st st' t) : st.current.proto.Grows st'.current.proto :=
  h.keeps.current.grows

end Step

namespace Extends

theorem refl (st : State) : Extends st st := ⟨.refl _, FunctionScope.widens_refl _, rfl, rfl⟩

theorem trans (h : Extends st st') (h' : Extends st' st'') : Extends st st'' :=
  ⟨h.current.trans h'.current, FunctionScope.widens_trans h.outer h'.outer,
    h'.captured.trans h.captured, h'.given.trans h.given⟩

theorem mapCurrent {f : FunctionScope → FunctionScope} (hs : st.scopes ≠ [])
    (h : st.current.Extends (f st.current))
    (hup : (f st.current).proto.upvalues = st.current.proto.upvalues) :
    Extends st (st.mapCurrent f) where
  current := by
    rw [State.current_mapCurrent hs]
    exact h
  outer := by
    rw [State.outer_mapCurrent]
    exact FunctionScope.widens_refl _
  captured := rfl
  given := given_mapCurrent hs hup

end Extends

theorem Keeps.extends (h : Keeps st st') : Extends st st' :=
  ⟨h.current.toAdds.extends, h.outer, h.captured, h.given⟩

end Generator
end LuaMachine
