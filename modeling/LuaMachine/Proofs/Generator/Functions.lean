import LuaMachine.Proofs.Generator.Control
/-! # Functions

A function is compiled in a scope of its own, and its code is finished with it: no open positions
are left, and the last word returns, so that every target is a word of the function.

* `Prototype.Sound.codeValid`: finished code is valid.
* `functionSound_of_body`: the scope around gets a valid function among its children.
-/
set_option autoImplicit false

namespace LuaMachine

/-! ## Finished code -/

theorem Prototype.Landing.isWord {p : Prototype} {n : Nat} {Good : Prototype → Prop}
    (h : p.Landing n) (hp : p.Sound Good []) : p.opcodeAt? n ≠ some .extra := by
  intro hextra
  obtain ⟨i, hi, hop⟩ := opcodeAt?_eq_some_iff.mp hextra
  obtain ⟨op, hop', hfit⟩ := hp.words n i hi (by simp)
  obtain rfl : op = .extra := Option.some.inj (hop'.symm.trans hop)
  obtain ⟨m, rfl, hlist⟩ := hfit.extra rfl
  exact h.apart m rfl hlist

/-- Finished code with a return added at its end. -/
theorem Prototype.Sound.codeValid {Good : Prototype → Prop} {p p' : Prototype}
    (h : p.Sound Good []) (h' : p'.Sound Good []) (hg : p.Grows p')
    (hsize : p'.chunk.size = p.chunk.size + 1)
    (hcode : ∀ n < p.chunk.size, p'.chunk.code[n]? = p.chunk.code[n]?)
    (hret : p'.opcodeAt? p.chunk.size = some .ret) : p'.CodeValid where
  registers := h'.registers
  words n i hi := by
    obtain ⟨op, hop, hfit⟩ := h'.words n i hi (by simp)
    refine ⟨op, hop, hfit.operands, ?_, ?_, hfit.extra, hfit.test⟩
    · intro t ht
      have hlt := lt_size_of_word hi
      rcases Nat.lt_or_ge n p.chunk.size with hn | hn
      · rw [hcode n hn] at hi
        obtain ⟨op', hop', hold⟩ := h.words n i hi (by simp)
        obtain rfl : op' = op := Option.some.inj (hop'.symm.trans hop)
        obtain ⟨m, rfl, hland⟩ := hold.target t ht
        have hle := hland.le
        exact ⟨m, rfl, by omega, (hg.landing hland).isWord h'⟩
      · -- the return itself goes nowhere else
        obtain rfl : n = p.chunk.size := by omega
        obtain ⟨j, hj, hjop⟩ := opcodeAt?_eq_some_iff.mp hret
        cases hi.symm.trans hj
        obtain rfl : op = .ret := Option.some.inj (hop.symm.trans hjop)
        simp [Instruction.targets] at ht
    · intro hlist
      have hextra := hfit.list hlist
      refine ⟨hextra, fun hextra' => ?_⟩
      obtain ⟨j, hj, hjop⟩ := opcodeAt?_eq_some_iff.mp hextra'
      obtain ⟨op', hop', hfit'⟩ := h'.words _ j hj (by simp)
      obtain rfl : op' = .extra := Option.some.inj (hop'.symm.trans hjop)
      obtain ⟨m, hm, hlist'⟩ := hfit'.extra rfl
      obtain rfl : m = n + 1 := by omega
      cases hextra.symm.trans hlist'
  last := by
    rw [hsize, Nat.add_sub_cancel]
    exact hret

namespace Generator

variable {Good : Prototype → Prop} {ps : List Nat} {st st' st₀ st₁ st₂ : State} {u : Unit}
  {b : ScopeBlock} {proto : Prototype}

theorem endBlock_chunk (h : endBlock st = .ok b st') (hs : st.scopes ≠ []) :
    st'.current.proto.chunk = st.current.proto.chunk := by
  obtain ⟨rfl, -⟩ := endBlock_ok h
  rw [State.current_mapCurrent hs]
  unfold FunctionScope.endBlock
  split <;> rfl

/-- The whole of a function's block, with the return at its end. -/
theorem finish_spec {u₁ u₂ : Unit} (hbegin : beginBlock false st₀ = .ok u₁ st₁)
    (hs₀ : Sound Good ps st₀) (he : Extends st₁ st) (hs : Sound Good [] st)
    (hret : emitAbc .ret 0 1 0 st = .ok u₂ st₂) (hend : endBlock st₂ = .ok b st') :
    Moves Good [] st₀ st' st₀.level st₀.level ∧ st.current.proto.Grows st'.current.proto ∧
      st'.current.proto.CodeValid := by
  have hmove := emitReturn_moves hret hs (by omega) (.inl rfl)
  obtain ⟨hmove', -, hgrow⟩ :=
    endBlock_moves hbegin hs₀ (he.trans hmove.extends') hmove.sound hend
  obtain ⟨n, hret⟩ := emitAbc_ok hret
  obtain ⟨rfl, hword, hsize⟩ := emit_word hret hs
  have hchunk := endBlock_chunk hend hmove.sound.exists_scope
  refine ⟨hmove', hmove.grows.trans hgrow,
    hs.current.proto.codeValid hmove'.sound.current.proto (hmove.grows.trans hgrow) ?_ ?_ ?_⟩
  · rw [hchunk]
    exact hsize
  · intro m hm
    rw [hchunk]
    exact (emit_adds hret hs).code m hm
  · exact hgrow.opcodeAt? (Prototype.opcodeAt?_eq_some_iff.mpr
      ⟨_, hword, Instruction.opcode?_abc .ret⟩)

/-! ## The scope of a new function -/

/-- A prototype without code, whose upvalues come from the scopes around it. -/
structure Fresh (proto : Prototype) (outer : List FunctionScope) : Prop where
  chunk : proto.chunk = {}
  children : proto.children = #[]
  locals : proto.locals = #[]
  registers : proto.registers ≤ FunctionScope.maxRegisters
  limit : proto.upvalues.size ≤ FunctionScope.maxUpvalues
  sources : ∀ u ∈ proto.upvalues, u.ComesFrom outer

theorem fresh_main (name : String) : Fresh (mainPrototype name) [] :=
  ⟨rfl, rfl, rfl, by change 2 ≤ 250; omega, by change 1 ≤ 255; omega, fun _ _ => trivial⟩

theorem create_sound {outer : List FunctionScope} {line : Nat} {captured : Std.HashSet Nat}
    (h : Fresh proto outer) (hnested : FunctionScope.Nested outer) :
    Sound Good [] ⟨FunctionScope.create proto :: outer, line, captured⟩ where
  exists_scope := by simp
  current := by
    have hcode : ∀ n : Nat, proto.chunk.code[n]? = none := by simp [h.chunk]
    refine ⟨⟨h.registers, ?_, ?_, ?_, ?_⟩, ⟨Nat.le_refl _, fun n _ hop => ?_⟩, ?_, ?_, ?_, ?_, ?_⟩
    · change proto.chunk.constants.size ≤ _
      simp [h.chunk]
    · intro k place hplace
      change proto.chunk.places[k]? = some place at hplace
      simp [h.chunk] at hplace
    · intro n i hi
      exact absurd ((hcode n).symm.trans hi) (by simp)
    · intro q hq
      change q ∈ proto.children at hq
      simp [h.children] at hq
    · obtain ⟨i, hi, -⟩ := Prototype.opcodeAt?_eq_some_iff.mp hop
      exact absurd ((hcode n).symm.trans hi) (by simp)
    · intro n l hl
      simp [FunctionScope.create, State.current] at hl
    · simp [FunctionScope.create, State.current]
    · simp [FunctionScope.create, State.current]
    · simp [FunctionScope.create, State.current]
    · simp [FunctionScope.create, State.current]
  nested := .cons (by simp [FunctionScope.create]) h.limit h.sources hnested

/-- A further child of the innermost function. -/
theorem addChild_step {q : Prototype} (hs : Sound Good ps st)
    (hq : st.current.proto.Supplies q) (hgood : Good q) :
    Step Good ps st (st.mapCurrent fun s =>
      { s with proto := { s.proto with children := s.proto.children.push q } }) st.top := by
  have hg : st.current.proto.Grows
      { st.current.proto with children := st.current.proto.children.push q } := by
    refine ⟨Nat.le_refl _, fun _ _ h => h, fun _ _ h => h, fun n q' hq' => ?_, Nat.le_refl _,
      fun _ _ => rfl, rfl⟩
    have hlt := (Array.getElem?_eq_some_iff.mp hq').1
    rw [Array.getElem?_push_lt hlt]
    rw [← hq', Array.getElem?_eq_getElem hlt]
  have hproto := hs.current.proto
  refine ⟨hs.mapCurrent ?_ rfl, .mapCurrent hs.exists_scope ?_ rfl, ?_⟩
  · refine hs.current.of_grows hg ⟨hproto.registers, hproto.constants, hproto.places, ?_, ?_⟩
      (hg.landing hs.current.settled) rfl rfl hs.current.level hs.current.top
    · exact hproto.words_of_grows hg fun n i hi hn => .inl ⟨hi, hn⟩
    · intro q' hq'
      rcases Array.mem_push.mp hq' with hq' | rfl
      · exact hproto.children_of_grows hg hq'
      · exact ⟨hg.supplies hq, hgood⟩
  · exact ⟨⟨hg, rfl, rfl, rfl, fun _ _ => rfl⟩, fun n i hn hi =>
      absurd (Prototype.lt_size_of_word hi) (Nat.not_lt.mpr hn)⟩
  · unfold State.top
    rw [State.current_mapCurrent hs.exists_scope]

/-! ## Functions inside of functions -/

/-- Valid code with good children makes a good function, if its parameters have registers. -/
def Closed (Good : Prototype → Prop) : Prop :=
  ∀ q : Prototype, q.CodeValid → q.params ≤ q.registers →
    (∀ c ∈ q.children, q.Supplies c ∧ Good c) → Good q

/-- What is compiled in the scope of a function. -/
def functionBody (proto : Prototype) (params : List Binder) (body : Gen Unit) (endLine : Nat) :
    Gen Unit := do
  setLine proto.line
  beginBlock false
  let _ ← reserve params.length proto.line
  params.forM addBinder
  body
  setLine endLine
  emitAbc .ret 0 1 0
  let _ ← endBlock

/-- Adds a finished function to the children of the one around it. -/
def addChild (child : Prototype) (line : Nat) : Gen Nat := do
  let place := (← scope).proto.children.size
  if Instruction.maxBx ≤ place then throw (.at "too many nested functions" line)
  modifyScope fun s => { s with proto := { s.proto with children := s.proto.children.push child } }
  return place

theorem compileFunction_eq (params : List Binder) (body : Gen Unit) (endLine : Nat) :
    compileFunction proto params body endLine = (do
      let saved ← currentLine
      let s ← scope
      modify fun st =>
        { st with scopes :=
            FunctionScope.create { proto with source := s.proto.source } :: st.scopes }
      functionBody proto params body endLine
      let s ← scope
      modify fun st => { st with scopes := st.scopes.tail, line := saved }
      addChild s.proto proto.line) := by
  simp only [compileFunction, functionBody, addChild, bind_assoc, pure_bind]

/-- From the scope of a new function to its finished code. -/
theorem functionBody_moves {fresh : Prototype} {outer : List FunctionScope} {line endLine : Nat}
    {captured : Std.HashSet Nat} {params : List Binder} {body : Gen Unit}
    (h : functionBody proto params body endLine
      ⟨FunctionScope.create fresh :: outer, line, captured⟩ = .ok u st')
    (hfresh : Fresh fresh outer) (hnested : FunctionScope.Nested outer)
    (hparams : fresh.params = params.length) (hbody : BodySound Good body) :
    Moves Good [] ⟨FunctionScope.create fresh :: outer, line, captured⟩ st' 0 0 ∧
      st'.current.proto.CodeValid ∧
      st'.current.proto.params ≤ st'.current.proto.registers := by
  simp only [functionBody, bind_ok, pure_ok] at h
  obtain ⟨_, st₁, hline, _, st₂, hbegin, r, st₃, hreserve, _, st₄, hbinders, _, st₅, hinner, _, st₆,
    hline', _, st₇, hret, block, st₈, hend, -, rfl⟩ := h
  have hs₀ : Sound Good [] ⟨FunctionScope.create fresh :: outer, line, captured⟩ :=
    create_sound hfresh hnested
  have hstep₁ := setLine_step hline hs₀
  obtain ⟨hs₂, htop₂, hlevel₂, -⟩ := beginBlock_sound hbegin hstep₁.sound
  have hstep₃ := (reserve_step hreserve hs₂).1
  have hmove₄ := hstep₃.moves.trans (addBinders_moves hbinders hstep₃.sound)
  have htop₁ : st₁.top = 0 := hstep₁.top_eq
  have hlevel₁ : st₁.level = 0 := hstep₁.level
  have htop₃ := hstep₃.top_eq
  have hlevel₃ := hstep₃.level
  have htop₄ := hmove₄.top_eq
  have hlevel₄ := hmove₄.level_eq
  obtain ⟨m, hmove₅⟩ := hbody _ _ _ _ hmove₄.sound (by omega) hinner
  have hmove₆ := (hmove₄.trans hmove₅).trans (setLine_step hline' hmove₅.sound).moves
  obtain ⟨hmove₈, hgrows₈, hvalid⟩ :=
    finish_spec hbegin hstep₁.sound hmove₆.extends' hmove₆.sound hret hend
  have hmove := hstep₁.moves.trans hmove₈
  refine ⟨hmove.cast hlevel₁ hlevel₁, hvalid, ?_⟩
  have hgrows := (hmove₅.trans (setLine_step hline' hmove₅.sound).moves).grows.trans hgrows₈
  have hroom := hmove₄.sound.top_le
  have hparams' : st'.current.proto.params = params.length := hmove.grows.params.trans hparams
  have hregisters := hgrows.registers
  omega

theorem compileFunction_step {params : List Binder} {body : Gen Unit} {endLine n : Nat}
    (h : compileFunction proto params body endLine st = .ok n st') (hs : Sound Good ps st)
    (hparams : proto.params = params.length)
    (hfresh : ∀ source outer, Fresh { proto with source := source } outer)
    (hbody : BodySound Good body) (hgood : Closed Good) :
    Step Good ps st st' st.top ∧ n ≤ Instruction.maxBx ∧
      st'.current.proto.chunk = st.current.proto.chunk ∧
      ∃ q, st'.current.proto.children[n]? = some q ∧ TakesCaptured st'.current q := by
  simp only [compileFunction_eq, addChild, bind_ok, currentLine_ok, scope_ok, modify_ok, and_assoc,
    exists_and_left, exists_eq_left, exists_const] at h
  obtain ⟨_, st₈, hinside, h⟩ := h
  obtain ⟨hmove₈, hvalid, hregisters⟩ :=
    functionBody_moves hinside (hfresh _ _) hs.nested hparams hbody
  -- back in the function around it
  have houter : List.Forall₂ FunctionScope.Widens st.scopes st₈.outer :=
    hmove₈.extends'.outer
  have hcaptured : st₈.captured = st.captured :=
    hmove₈.extends'.captured
  have hnested := hmove₈.sound.nested
  rw [State.scopes_eq hmove₈.sound.exists_scope] at hnested
  cases hnested with
  | cons registers limit sources nested =>
  have hgiven : FunctionScope.given st₈.outer = FunctionScope.given st.scopes := by
    have hall := hmove₈.extends'.given
    rw [State.scopes_eq hmove₈.sound.exists_scope, State.scopes_eq hs.exists_scope] at hall
    rw [State.scopes_eq hs.exists_scope] at houter ⊢
    generalize st₈.outer = outer at hall houter ⊢
    cases houter with
    | cons _ _ => simpa using hall
  have hback := step_of_widens hs nested houter hgiven
  have hpopped : (⟨st₈.scopes.tail, st.line, st₈.captured⟩ : State) =
      { st with scopes := st₈.outer } := by
    rw [hcaptured]
    rfl
  rw [hpopped] at h
  have hscopes : st₈.outer = _ := State.scopes_eq hback.sound.exists_scope
  have hfrom : ∀ v ∈ st₈.current.proto.upvalues, v.ComesFrom _ := hscopes ▸ sources
  have hsupplies : ({ st with scopes := st₈.outer } : State).current.proto.Supplies
      st₈.current.proto := by
    intro v hv
    split
    next hreg =>
      obtain ⟨l, hl, -, hindex, -⟩ := (hfrom v hv).1 hreg
      rw [← hindex]
      exact hback.sound.current.local_lt hl
    next hup =>
      obtain ⟨w, hw, -⟩ := (hfrom v hv).2 (by simpa using hup)
      exact (Array.getElem?_eq_some_iff.mp hw).1
  split at h
  · simp only [bind_ok, throw_ok, false_and, exists_false] at h
  next hroom =>
    simp only [bind_ok, modifyScope_ok, pure_ok, exists_and_left, exists_eq_left,
      exists_const] at h
    obtain ⟨rfl, rfl⟩ := h
    have hchild := addChild_step hback.sound hsupplies
      (hgood _ hvalid hregisters hmove₈.sound.current.proto.children)
    refine ⟨(hback.trans hchild).cast hback.top_eq, by omega, ?_, st₈.current.proto, ?_, ?_⟩
    · rw [State.current_mapCurrent hback.sound.exists_scope]
      exact chunk_of_widens houter
    · rw [State.current_mapCurrent hback.sound.exists_scope]
      exact Array.getElem?_push_size
    · intro v hv hreg
      obtain ⟨l, hl, hcaptured, hindex, -⟩ := (hfrom v hv).1 hreg
      rw [State.current_mapCurrent hback.sound.exists_scope]
      exact ⟨l, hl, hcaptured, hindex⟩

end Generator
end LuaMachine
