import LuaMachine.Proofs.Generator.Control
/-! # Actions of the compiler that end in no defect

An action may complain about the program, but it must not find the compiler itself in disorder. What
it adds to the functions being compiled is looked at as well: a function gets children only of which
a given property holds.

* `Generator.Flawless`: an action that ends in no defect from a state.
* `release_flawless`, `addLocal_flawless`: the actions that ask for registers in order.
* `setLine_flawless`, `emit_flawless` and the like: the actions that never find a defect.
-/
set_option autoImplicit false

namespace LuaMachine

/-! ## Functions and the functions inside of them -/

/-- In the function and in all functions inside of it. -/
inductive Prototype.Everywhere (P : Prototype → Prop) : Prototype → Prop
  | intro {p : Prototype} (here : P p) (nested : ∀ q ∈ p.children, q.Everywhere P) :
    p.Everywhere P

/-- What a function is known by: its name, its line and its parameters. -/
def Prototype.header (p : Prototype) : String × Nat × Nat × Bool :=
  (p.name, p.line, p.params, p.variadic)

/-- The scope is of the same function, and the children that it got are as `P` says. -/
structure FunctionScope.Evolves (P : Prototype → Prop) (s s' : FunctionScope) : Prop where
  header : s'.proto.header = s.proto.header
  children : ∀ q ∈ s'.proto.children, q ∈ s.proto.children ∨ q.Everywhere P

namespace FunctionScope.Evolves

variable {P : Prototype → Prop} {s s' s'' : FunctionScope}

theorem refl (s : FunctionScope) : s.Evolves P s := ⟨rfl, fun _ hq => .inl hq⟩

theorem trans (h : s.Evolves P s') (h' : s'.Evolves P s'') : s.Evolves P s'' where
  header := h'.header.trans h.header
  children q hq := (h'.children q hq).elim (h.children q) .inr

theorem of_widens (h : s.Widens s') : s.Evolves P s' := by
  obtain ⟨us, cs, rfl⟩ := h
  exact ⟨rfl, fun _ hq => .inl hq⟩

end FunctionScope.Evolves

namespace Generator

/-! ## Flawless actions -/

/-- From this state the action ends in no defect. -/
def Safe {α : Type} (act : Gen α) (st : State) : Prop :=
  ∀ why st', act st ≠ .error (.defect why) st'

/-- From this state the action ends in no defect, and the scopes evolve. -/
structure Flawless (P : Prototype → Prop) {α : Type} (act : Gen α) (st : State) : Prop where
  safe : Safe act st
  evolves : ∀ a st', act st = .ok a st' →
    List.Forall₂ (FunctionScope.Evolves P) st.scopes st'.scopes

variable {P : Prototype → Prop} {α β : Type} {st : State}

theorem evolves_refl (scopes : List FunctionScope) :
    List.Forall₂ (FunctionScope.Evolves P) scopes scopes :=
  List.forall₂_same.mpr fun s _ => .refl s

theorem evolves_trans {a b c : List FunctionScope}
    (h : List.Forall₂ (FunctionScope.Evolves P) a b)
    (h' : List.Forall₂ (FunctionScope.Evolves P) b c) :
    List.Forall₂ (FunctionScope.Evolves P) a c :=
  FunctionScope.forall₂_trans (fun _ _ _ => .trans) h h'

/-- What an action finds after the one before it is known, since that one succeeded. -/
theorem Safe.bind {act : Gen α} {f : α → Gen β} (h : Safe act st)
    (hf : ∀ a st', act st = .ok a st' → Safe (f a) st') : Safe (act >>= f) st := by
  intro why st'' hbind
  change EStateM.bind act f st = _ at hbind
  unfold EStateM.bind at hbind
  split at hbind
  next a st' hact => exact hf a st' hact why st'' hbind
  next e st' hact =>
    cases hbind
    exact h why _ hact

namespace Flawless

theorem bind {act : Gen α} {f : α → Gen β} (h : Flawless P act st)
    (hf : ∀ a st', act st = .ok a st' → Flawless P (f a) st') : Flawless P (act >>= f) st where
  safe := h.safe.bind fun a st' hact => (hf a st' hact).safe
  evolves b st'' hok := by
    obtain ⟨a, st', hact, hrest⟩ := bind_ok.mp hok
    exact evolves_trans (h.evolves a st' hact) ((hf a st' hact).evolves b st'' hrest)

/-- An action that leaves the functions as they are. -/
theorem of_ok {act : Gen α} {a : α} {st' : State} (h : act st = .ok a st')
    (he : List.Forall₂ (FunctionScope.Evolves P) st.scopes st'.scopes) : Flawless P act st where
  safe why st'' hact := by
    cases h.symm.trans hact
  evolves a' st'' hok := by
    cases h.symm.trans hok
    exact he

theorem pure (a : α) : Flawless P (Pure.pure a : Gen α) st := .of_ok rfl (evolves_refl _)

theorem get : Flawless P (MonadState.get : Gen State) st := .of_ok rfl (evolves_refl _)

/-- A complaint about the program is no defect. -/
theorem complain {message : String} {line : Nat} :
    Flawless P (throw (.at message line) : Gen α) st where
  safe _ _ h := by cases h
  evolves _ _ h := (throw_ok.mp h).elim

theorem ite {c : Prop} [Decidable c] {act act' : Gen α} (h : c → Flawless P act st)
    (h' : ¬c → Flawless P act' st) : Flawless P (if c then act else act') st := by
  split
  next hc => exact h hc
  next hc => exact h' hc

theorem modifyScope {f : FunctionScope → FunctionScope}
    (hf : st.current.Evolves P (f st.current)) : Flawless P (modifyScope f) st := by
  refine .of_ok rfl ?_
  change List.Forall₂ _ st.scopes (st.scopes.modifyHead f)
  unfold State.current at hf
  cases hscopes : st.scopes with
  | nil => exact .nil
  | cons s rest =>
    rw [hscopes] at hf
    exact .cons hf (evolves_refl rest)

theorem forM {f : α → Gen Unit} (hf : ∀ a st, Flawless P (f a) st) (as : List α) :
    Flawless P (as.forM f) st := by
  induction as generalizing st with
  | nil => exact .pure ()
  | cons a as ih => exact (hf a st).bind fun _ _ _ => ih

theorem scope : Flawless P scope st := (Flawless.get).bind fun _ _ _ => .pure _

theorem onScope {f : FunctionScope → Except CompileFault (FunctionScope × α)}
    (hsafe : ∀ why, f st.current ≠ .error (.defect why))
    (hf : ∀ s a, f st.current = .ok (s, a) → st.current.Evolves P s) :
    Flawless P (onScope f) st := by
  refine (Flawless.scope).bind fun s st' hscope => ?_
  obtain ⟨rfl, rfl⟩ := scope_ok.mp hscope
  split
  next new a hnew => exact (Flawless.modifyScope (hf new a hnew)).bind fun _ _ _ => .pure a
  next e he =>
    refine ⟨fun why st' h => ?_, fun _ _ h => (throw_ok.mp h).elim⟩
    cases h
    exact hsafe why he

theorem onScope' {f : FunctionScope → Except CompileFault FunctionScope}
    (hsafe : ∀ why, f st.current ≠ .error (.defect why))
    (hf : ∀ s, f st.current = .ok s → st.current.Evolves P s) : Flawless P (onScope' f) st := by
  refine .onScope (fun why h => ?_) fun s a h => ?_
  · cases hnew : f st.current with
    | ok s => simp [hnew, Except.map] at h
    | error e =>
      simp only [hnew, Except.map, Except.error.injEq] at h
      exact hsafe why (hnew.trans (congrArg _ h))
  · cases hnew : f st.current with
    | ok s' =>
      simp only [hnew, Except.map, Except.ok.injEq, Prod.mk.injEq] at h
      obtain ⟨rfl, -⟩ := h
      exact hf s' hnew
    | error e => simp [hnew, Except.map] at h

end Flawless

/-! ## Actions that never find a defect -/

section Single

variable {line n m r a b c count : Nat} {i : Instruction} {op : Opcode} {k : Constant}

theorem setLine_flawless : Flawless P (setLine line) st := .of_ok rfl (evolves_refl _)

theorem currentLine_flawless : Flawless P currentLine st :=
  (Flawless.get).bind fun _ _ _ => .pure _

theorem free_flawless : Flawless P free st := (Flawless.scope).bind fun _ _ _ => .pure _

theorem here_flawless : Flawless P here st := (Flawless.scope).bind fun _ _ _ => .pure _

theorem isTop_flawless : Flawless P (isTop r) st := (Flawless.scope).bind fun _ _ _ => .pure _

theorem currentBlock_flawless : Flawless P currentBlock st :=
  (Flawless.scope).bind fun _ _ _ => .pure _

theorem emit_flawless : Flawless P (emit i) st :=
  (here_flawless).bind fun _ _ _ => (currentLine_flawless).bind fun _ _ _ =>
    (Flawless.modifyScope ⟨rfl, fun _ hq => .inl hq⟩).bind fun _ _ _ => .pure _

theorem emitAbc_flawless : Flawless P (emitAbc op a b c) st :=
  (emit_flawless).bind fun _ _ _ => .pure ()

theorem emitAbx_flawless : Flawless P (emitAbx op a b) st :=
  (emit_flawless).bind fun _ _ _ => .pure ()

theorem emitExtra_flawless : Flawless P (emitExtra n) st :=
  (emit_flawless).bind fun _ _ _ => .pure ()

theorem emitJump_flawless : Flawless P emitJump st := emit_flawless

theorem emitLoop_flawless : Flawless P (emitLoop op a) st := emit_flawless

theorem patchWithin_flawless {f : Instruction → Int → Instruction} :
    Flawless P (patchWithin m n r f) st :=
  .ite (fun _ => .modifyScope ⟨rfl, fun _ hq => .inl hq⟩) fun _ =>
    (currentLine_flawless).bind fun _ _ _ => .complain

theorem patchJump_flawless : Flawless P (patchJump n m) st := patchWithin_flawless

theorem patchLoop_flawless : Flawless P (patchLoop n m) st := patchWithin_flawless

theorem patchJumpHere_flawless : Flawless P (patchJumpHere n) st :=
  (here_flawless).bind fun _ _ _ => patchJump_flawless

theorem patchBreaks_flawless {block : ScopeBlock} : Flawless P (patchBreaks block) st :=
  .forM (fun _ _ => patchJumpHere_flawless) block.breaks

theorem jumpBack_flawless : Flawless P (jumpBack n) st :=
  (emitJump_flawless).bind fun _ _ _ => patchJump_flawless

theorem jumpOver_flawless {more : Bool} : Flawless P (jumpOver more) st :=
  .ite (fun _ => (emitJump_flawless).bind fun _ _ _ => .pure _) fun _ => .pure _

theorem addConstant_flawless : Flawless P (addConstant k) st := by
  refine (Flawless.scope).bind fun s _ _ => ?_
  split
  · exact (Flawless.modifyScope ⟨rfl, fun _ hq => .inl hq⟩).bind fun _ _ _ => .pure _
  · exact (currentLine_flawless).bind fun _ _ _ => .complain

theorem keyPlace?_flawless {key : String} : Flawless P (keyPlace? key) st :=
  (addConstant_flawless).bind fun _ _ _ => .pure _

theorem fieldPlace?_flawless {key : Expr} : Flawless P (fieldPlace? key) st := by
  unfold fieldPlace?
  split
  · exact keyPlace?_flawless
  · exact .pure _

theorem loadConstant_flawless : Flawless P (loadConstant r k) st := by
  unfold loadConstant
  split
  · exact emitAbc_flawless
  · exact emitAbc_flawless
  · exact (addConstant_flawless).bind fun _ _ _ => emitAbx_flawless

/-- Too many registers are a complaint about the program. -/
theorem ensureRegisters_evolves {s s' : FunctionScope} {count : Int}
    (h : s.ensureRegisters count line = .ok s') : s.Evolves P s' := by
  obtain ⟨rfl, -⟩ := ensureRegisters_ok h
  exact ⟨rfl, fun _ hq => .inl hq⟩

theorem ensureRegisters_safe (s : FunctionScope) (count : Int) (why : String) :
    s.ensureRegisters count line ≠ .error (.defect why) := by
  unfold FunctionScope.ensureRegisters
  split
  · simp [CompileFault.at]
  · split <;> simp

theorem ensureRegisters_flawless {count : Int} :
    Flawless P (onScope' fun s => s.ensureRegisters count line) st :=
  .onScope' (fun why => ensureRegisters_safe _ _ why) fun _ => ensureRegisters_evolves

theorem reserve_flawless : Flawless P (reserve count line) st := by
  refine (Flawless.onScope (fun why h => ?_) fun s r h => ?_).bind fun _ _ _ => .pure _
  all_goals
    unfold FunctionScope.reserve at h
    split at h
  · cases h
  next e he =>
    cases h
    exact ensureRegisters_safe _ _ why he
  next s' hs =>
    cases h
    have hevolves := ensureRegisters_evolves (P := P) hs
    exact ⟨hevolves.header, hevolves.children⟩
  · cases h

theorem padNils_flawless : Flawless P (padNils count line) st :=
  .ite (fun _ => (reserve_flawless).bind fun _ _ _ => emitAbc_flawless) fun _ => .pure ()

theorem compileVararg_flawless {d : Destination} : Flawless P (compileVararg line d) st := by
  refine (setLine_flawless).bind fun _ _ _ => ?_
  split
  · exact emitAbc_flawless
  · exact emitAbc_flawless
  · exact (free_flawless).bind fun _ _ _ => .ite
      (fun _ => (reserve_flawless).bind fun _ _ _ => emitAbc_flawless) fun _ => emitAbc_flawless

/-! ## Blocks and labels -/

theorem modifyBlock_flawless {f : ScopeBlock → ScopeBlock} : Flawless P (modifyBlock f) st :=
  .modifyScope ⟨rfl, fun _ hq => .inl hq⟩

theorem beginBlock_flawless {isLoop : Bool} : Flawless P (beginBlock isLoop) st :=
  .modifyScope ⟨rfl, fun _ hq => .inl hq⟩

theorem endBlock_flawless : Flawless P endBlock st := by
  refine (Flawless.scope).bind fun s st' hscope => ?_
  obtain ⟨rfl, rfl⟩ := scope_ok.mp hscope
  have hend : st'.current.Evolves P st'.current.endBlock.1 := by
    unfold FunctionScope.endBlock
    split <;> exact ⟨rfl, fun _ hq => .inl hq⟩
  exact (Flawless.modifyScope hend).bind fun _ _ _ => .pure _

theorem closeIf_flawless {captured : Bool} : Flawless P (closeIf captured n) st :=
  .ite (fun _ => emitAbc_flawless) fun _ => .pure ()

theorem compileGoto_flawless {name : String} : Flawless P (compileGoto name line) st := by
  refine (setLine_flawless).bind fun _ _ _ => (Flawless.scope).bind fun s _ _ => ?_
  split
  · exact (closeIf_flawless).bind fun _ _ _ => jumpBack_flawless
  · exact (emitJump_flawless).bind fun _ _ _ => modifyBlock_flawless

theorem compileLabel_flawless {name : String} {atEnd : Bool} :
    Flawless P (compileLabel name line atEnd) st :=
  (setLine_flawless).bind fun _ _ _ => (currentBlock_flawless).bind fun _ _ _ =>
    (Flawless.scope).bind fun _ _ _ => (here_flawless).bind fun _ _ _ =>
      (closeIf_flawless).bind fun _ _ _ => (modifyBlock_flawless).bind fun _ _ _ =>
        .forM (fun _ _ => patchJump_flawless) _

end Single

/-! ## Actions that ask for order -/

section Order

variable {Good : Prototype → Prop} {ps : List Nat} {line r : Nat}

/-- Registers are given back from one of the temporary ones on. -/
theorem release_flawless (hs : Sound Good ps st) (hlevel : st.level ≤ r) (htop : r ≤ st.top) :
    Flawless P (release r) st := by
  have hfree := hs.free_eq
  unfold State.level at hlevel
  refine .onScope' (fun why h => ?_) fun s h => ?_
  all_goals
    unfold FunctionScope.release FunctionScope.localsLevel at h
    split at h
  next hout =>
    simp only [Bool.or_eq_true, decide_eq_true_eq] at hout
    omega
  · cases h
  · cases h
  · cases h
    exact ⟨rfl, fun _ hq => .inl hq⟩

theorem releaseAbove_flawless (hs : Sound Good ps st) (hlevel : st.level ≤ r) :
    Flawless P (releaseAbove r) st := by
  refine (free_flawless).bind fun n st' hfree => ?_
  obtain ⟨rfl, rfl⟩ := free_ok.mp hfree
  exact .ite (fun hlt => release_flawless hs hlevel (Nat.le_of_lt hlt)) fun _ => .pure ()

/-- Giving back what was taken since. -/
theorem release_saved_flawless {st₁ : State} {t : Nat} (hs : Sound Good ps st)
    (hstep : Step Good ps st st₁ t) (ht : st.top ≤ t) : Flawless P (release st.top) st₁ := by
  have hlevel := hs.level_le
  have htop := hstep.top_eq
  refine release_flawless hstep.sound ?_ (by omega)
  rw [hstep.level]
  exact hlevel

/-- A variable is declared when its value is in a register. -/
theorem addLocal_flawless {name : String} {captured constant : Bool} (hs : Sound Good ps st)
    (htop : st.level < st.top) : Flawless P (addLocal name captured constant) st := by
  have hfree := hs.free_eq
  unfold State.level at htop
  refine .onScope' (fun why h => ?_) fun s h => ?_
  · unfold FunctionScope.addLocal FunctionScope.localsLevel at h
    have hroom : ¬st.current.free ≤ (st.current.locals.size : Int) := by omega
    simp only [if_neg hroom] at h
    cases h
  · obtain ⟨-, rfl⟩ := addLocal_ok h
    exact ⟨rfl, fun _ hq => .inl hq⟩

theorem addBinder_flawless {b : Binder} (hs : Sound Good ps st) (htop : st.level < st.top) :
    Flawless P (addBinder b) st := by
  refine (Flawless.get).bind fun _ st₁ hget => ?_
  obtain ⟨-, rfl⟩ := get_ok.mp hget
  exact addLocal_flawless hs htop

theorem addBinders_flawless {bs : List Binder} (hs : Sound Good ps st)
    (htop : st.level + bs.length ≤ st.top) : Flawless P (bs.forM addBinder) st := by
  induction bs generalizing st with
  | nil => exact .pure ()
  | cons b bs ih =>
    simp only [List.length_cons] at htop
    refine (addBinder_flawless hs (by omega)).bind fun _ st' h => ?_
    have hmove := addBinder_moves h hs
    have htop' := hmove.top_eq
    have hlevel' := hmove.level_eq
    exact ih hmove.sound (by omega)

theorem addLoopState_flawless (hs : Sound Good ps st) (htop : st.level + 3 ≤ st.top) :
    Flawless P addLoopState st := by
  refine (addLocal_flawless hs (by omega)).bind fun _ st₁ h₁ => ?_
  have hmove₁ := addLocal_moves h₁ hs
  have htop₁ := hmove₁.top_eq
  have hlevel₁ := hmove₁.level_eq
  refine (addLocal_flawless hmove₁.sound (by omega)).bind fun _ st₂ h₂ => ?_
  have hmove₂ := addLocal_moves h₂ hmove₁.sound
  have htop₂ := hmove₂.top_eq
  have hlevel₂ := hmove₂.level_eq
  exact addLocal_flawless hmove₂.sound (by omega)

end Order

end Generator
end LuaMachine
