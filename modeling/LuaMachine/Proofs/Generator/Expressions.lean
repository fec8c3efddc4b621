import LuaMachine.Generator
import LuaMachine.Proofs.Generator.Names
/-! # Expressions

One lemma for each form of expression: if compiling its parts keeps a sound state sound, so does
compiling the whole, and its value is at its destination.

* `ExprSound`, `FieldsSound`, `FunctionSound`: the statements, for trees of each kind.
* `exprSound_unary`, `exprSound_binary` and the like: the cases of the induction over expressions.
-/
set_option autoImplicit false

namespace LuaMachine
namespace Generator

-- The equations of the compiler are derived once, here, and not by each lemma that first needs one.
attribute [simp] evaluate.eq_1 items.eq_1 fields.eq_1 function.eq_1 target.eq_1 targets.eq_1
  branches.eq_1 statement.eq_1 statements.eq_1

/-! ## The statements -/

/-- The registers of the destination are in use; a concatenation needs one for each operand. -/
def Destination.Fits (d : Destination) (e : Expr) (top : Nat) : Prop :=
  match d with
  | .register r => r < top
  | .part r => r + chainLength e ≤ top
  | .values _ => True

def ExprSound (Good : Prototype → Prop) (e : Expr) : Prop :=
  ∀ (ps : List Nat) (st st' : State) (d : Destination) (u : Unit), Sound Good ps st →
    d.Fits e st.top → evaluate e d st = .ok u st' →
    Step Good ps st st' (d.after e.isMultiple st.top)

/-- The entries go to a table with `pending` items above it, which are stored in the end. -/
def FieldsSound (Good : Prototype → Prop) (fs : List Field) : Prop :=
  ∀ (ps : List Nat) (st st' : State) (table line pending stored : Nat) (u : Unit),
    Sound Good ps st → st.top = table + 1 + pending →
    fields fs table line pending stored st = .ok u st' → st.level ≤ table →
    Step Good ps st st' (table + 1)

/-- A child whose closures take captured variables of the scope. -/
def TakesCaptured (s : FunctionScope) (q : Prototype) : Prop :=
  ∀ u ∈ q.upvalues, u.fromRegister = true →
    ∃ l ∈ s.locals, l.captured = true ∧ l.register = u.index

def FunctionSound (Good : Prototype → Prop) (f : Function) : Prop :=
  ∀ (ps : List Nat) (st st' : State) (n : Nat), Sound Good ps st → function f st = .ok n st' →
    Step Good ps st st' st.top ∧ n ≤ Instruction.maxBx ∧
      st'.current.proto.chunk = st.current.proto.chunk ∧
      ∃ q, st'.current.proto.children[n]? = some q ∧ TakesCaptured st'.current q

variable {Good : Prototype → Prop} {ps : List Nat} {st st' st₁ : State} {u : Unit}
  {line r : Nat} {e a b k : Expr} {d : Destination}

theorem chainLength_pos (e : Expr) : 0 < chainLength e := by
  unfold chainLength
  split <;> omega

theorem Destination.Fits.inUse {top : Nat} (h : d.Fits e top) : d.InUse top := by
  cases d with
  | register r => exact h
  | part r =>
    have hpos := chainLength_pos e
    have hle : r + chainLength e ≤ top := h
    change r < top
    omega
  | values n => trivial

theorem ExprSound.evaluation (h : ExprSound Good e) :
    EvaluationSound Good fun t => evaluate e (.register t) :=
  fun ps st st' r u hs hr hok => h ps st st' (.register r) u hs hr hok

/-- An expression with one value, which an action leaves in a register. -/
theorem exprSound_of_single {act : Evaluation} (hsingle : e.isMultiple = false)
    (heq : ∀ d, evaluate e d = single line d act) (hact : EvaluationSound Good act) :
    ExprSound Good e := by
  intro ps st st' d u hs hd h
  rw [heq] at h
  rw [hsingle]
  exact single_step h hs hact hd.inUse

/-! ## Constants and operators -/

/-- A constant, loaded at a line. -/
theorem evaluationSound_constant (k : Constant) :
    EvaluationSound Good (fun r => do
      setLine line
      loadConstant r k) := by
  intro ps st st' r u hs hr h
  simp only [bind_ok] at h
  obtain ⟨_, st₁, hline, h⟩ := h
  have hstep := setLine_step hline hs
  have htop := hstep.top_eq
  exact (hstep.trans (loadConstant_step h hstep.sound (by omega))).cast htop

theorem exprSound_literal (v : Literal) (line : Nat) : ExprSound Good (.literal v line) :=
  exprSound_of_single rfl (fun d => by rw [evaluate]) (evaluationSound_constant v.constant)

theorem exprSound_str (s : String) (line : Nat) : ExprSound Good (.str s line) :=
  exprSound_of_single rfl (fun d => by rw [evaluate]) (evaluationSound_constant (.str s))

theorem exprSound_unary (op : UnaryOp) (line : Nat) (he : ExprSound Good e) :
    ExprSound Good (.unary op e line) := by
  refine exprSound_of_single rfl (fun d => by rw [evaluate]) ?_
  intro ps st st' r u hs hr h
  cases hfold : (Expr.unary op e line).fold with
  | some k =>
    simp only [hfold] at h
    exact evaluationSound_constant k _ _ _ _ _ hs hr h
  | none =>
    simp only [hfold, bind_ok, free_ok, and_assoc, exists_and_left, exists_eq_left] at h
    obtain ⟨operand, st₁, hvalue, _, st₂, hline, _, st₃, hop, h⟩ := h
    obtain ⟨t, hstep₁, hlt, hle⟩ := toAnyRegister_step hvalue hs he.evaluation
    have hstep₂ := hstep₁.trans (setLine_step hline hstep₁.sound)
    have htop₁ := hstep₁.top_eq
    have htop₂ := hstep₂.top_eq
    have hstep₃ := hstep₂.trans (emitUnary_step hop hstep₂.sound (by omega) (by omega))
    exact release_saved h ⟨_, hstep₃⟩

/-- `and` and `or`: the second operand is jumped over when the first one decides. -/
theorem shortCircuit_step {value : Nat} {first second : Evaluation} (hvalue : value < 256)
    (h : (do
      first r
      setLine line
      emitAbc .test r value 0
      let skip ← emitJump
      second r
      patchJumpHere skip) st = .ok u st')
    (hs : Sound Good ps st) (ha : EvaluationSound Good first) (hb : EvaluationSound Good second)
    (hr : r < st.top) : Step Good ps st st' st.top := by
  simp only [bind_ok] at h
  obtain ⟨_, st₁, hleft, _, st₂, hline, _, st₃, htest, skip, st₄, hjump, _, st₅, hright, h⟩ := h
  have hstep₁ := ha _ _ _ _ _ hs hr hleft
  have hstep₂ := hstep₁.trans (setLine_step hline hstep₁.sound)
  have htop₁ := hstep₁.top_eq
  have htop₂ := hstep₂.top_eq
  have hregisters := hstep₂.sound.top_le
  obtain ⟨hsound, hkeeps, htop₄, hskip, hop⟩ :=
    emitTest_step htest hjump hstep₂.sound (by omega) hvalue
  have hstep₄ : Step Good ps st st₄ st.top := ⟨hsound, hstep₂.keeps.trans hkeeps, by omega⟩
  have hright' := hb _ _ _ _ _ hsound (by omega) hright
  have hstep₅ := hstep₄.trans hright'
  have hsize := hstep₂.grows.size
  have hsize' := hstep₅.grows.size
  have h' := patchJumpHere_ok h
  have hop' := hright'.grows.opcodeAt? hop
  have hland := hstep₅.sound.current.settled
  refine ⟨patchJump_sound h' hstep₅.sound hop' hland,
    patchJump_keeps h' hstep₅.sound hop' hland hstep₅.keeps (by omega) hsize', ?_⟩
  have htop₅ := hstep₅.top_eq
  rw [patchJump_top h' hstep₅.sound]
  omega

/-- A chain of concatenations: its operands are evaluated to consecutive registers. -/
theorem concat_step
    (h : (do
      let base ← reserve (chainLength b + 1) line
      evaluate a (.register base)
      evaluate b (.part (base + 1))
      setLine line
      emitAbc .concat r base (chainLength b + 1)
      release base) st = .ok u st')
    (hs : Sound Good ps st) (ha : ExprSound Good a) (hb : ExprSound Good b) (hr : r < st.top) :
    Step Good ps st st' st.top := by
  simp only [bind_ok] at h
  obtain ⟨base, st₁, hreserve, _, st₂, hleft, _, st₃, hright, _, st₄, hline, _, st₅, hop, h⟩ := h
  obtain ⟨hstep₁, rfl⟩ := reserve_step hreserve hs
  have htop₁ := hstep₁.top_eq
  have hstep₂ := hstep₁.trans (ha.evaluation _ _ _ _ _ hstep₁.sound (by omega) hleft)
  have htop₂ := hstep₂.top_eq
  have hfits : (Destination.part (st.top + 1)).Fits b st₂.top := by
    change st.top + 1 + chainLength b ≤ st₂.top
    omega
  have hstep₃ := hstep₂.trans (hb _ _ _ _ _ hstep₂.sound hfits hright)
  have htop₃ : st₃.top = st₂.top := hstep₃.top_eq
  have hstep₄ := hstep₃.trans (setLine_step hline hstep₃.sound)
  have htop₄ := hstep₄.top_eq
  have hregisters := hstep₄.sound.top_le
  have hmax := hstep₄.sound.registers_le
  have hstep₅ := hstep₄.trans (emitRegisters_step hop hstep₄.sound rfl (by simp) ⟨rfl, rfl⟩
    (by omega) (by
      simp only [Opcode.runs, List.mem_cons, List.not_mem_nil, or_false]
      rintro run (rfl | rfl) <;> omega))
  exact release_saved h ⟨_, hstep₅⟩

/-- An operator on the values of two expressions. -/
theorem operator_step {op : BinaryOp}
    (h : (do
      let saved ← free
      let left ← toAnyRegister a fun t => evaluate a (.register t)
      let right ← toAnyRegister b fun t => evaluate b (.register t)
      setLine line
      emitBinary op r left right
      release saved) st = .ok u st')
    (hs : Sound Good ps st) (ha : ExprSound Good a) (hb : ExprSound Good b) (hr : r < st.top) :
    Step Good ps st st' st.top := by
  simp only [bind_ok, free_ok, and_assoc, exists_and_left, exists_eq_left] at h
  obtain ⟨left, st₁, hleft, right, st₂, hright, _, st₃, hline, _, st₄, hop, h⟩ := h
  obtain ⟨t₁, hstep₁, hlt₁, hle₁⟩ := toAnyRegister_step hleft hs ha.evaluation
  obtain ⟨t₂, hstep₂', hlt₂, hle₂⟩ := toAnyRegister_step hright hstep₁.sound hb.evaluation
  have hstep₂ := hstep₁.trans hstep₂'
  have hstep₃ := hstep₂.trans (setLine_step hline hstep₂.sound)
  have htop₁ := hstep₁.top_eq
  have htop₂ := hstep₂.top_eq
  have htop₃ := hstep₃.top_eq
  have hstep₄ := hstep₃.trans
    (emitBinary_step hop hstep₃.sound (by omega) (by omega) (by omega))
  exact release_saved h ⟨_, hstep₄⟩

theorem exprSound_binary (op : BinaryOp) (line : Nat) (ha : ExprSound Good a)
    (hb : ExprSound Good b) : ExprSound Good (.binary op a b line) := by
  intro ps st st' d u hs hd h
  by_cases hpart : op = .concat ∧ ∃ r, d = .part r
  · obtain ⟨rfl, r, rfl⟩ := hpart
    have hle : r + (chainLength b + 1) ≤ st.top := hd
    rw [evaluate] at h
    simp only [bind_ok] at h
    obtain ⟨_, st₁, hleft, hright⟩ := h
    have hstep := ha.evaluation _ _ _ _ _ hs (by omega) hleft
    have hfits : (Destination.part (r + 1)).Fits b st₁.top := by
      have htop := hstep.top_eq
      change r + 1 + chainLength b ≤ st₁.top
      omega
    exact (hstep.trans (hb _ _ _ _ _ hstep.sound hfits hright)).cast hstep.top_eq
  · have hne : ∀ r, d = .part r → op = .concat → False := fun r hr hop => hpart ⟨hop, r, hr⟩
    rw [evaluate] at h
    · refine single_step h hs ?_ hd.inUse
      intro ps st st' r u hs hr h
      cases hfold : (Expr.binary op a b line).fold with
      | some k =>
        simp only [hfold] at h
        exact evaluationSound_constant k _ _ _ _ _ hs hr h
      | none =>
        simp only [hfold] at h
        cases op with
        | and | or => exact shortCircuit_step (by decide) h hs ha.evaluation hb.evaluation hr
        | concat => exact concat_step h hs ha hb hr
        | _ => exact operator_step h hs ha hb hr
    · exact hne

/-! ## Names, calls and tables -/

theorem exprSound_name (n : String) (line : Nat) : ExprSound Good (.name n line) :=
  exprSound_of_single rfl (fun d => by rw [evaluate])
    fun _ _ _ _ _ hs hr h => compileName_step h hs hr

theorem exprSound_vararg (line : Nat) : ExprSound Good (.vararg line) := by
  intro ps st st' d u hs hd h
  rw [evaluate] at h
  exact compileVararg_step h hs hd.inUse

theorem exprSound_paren (line : Nat) (he : ExprSound Good e) : ExprSound Good (.paren e line) :=
  exprSound_of_single rfl (fun d => by rw [evaluate]) he.evaluation

theorem exprSound_call {args : List Expr} (line : Nat) (he : ExprSound Good e)
    (hargs : ItemsSound Good args (items args)) : ExprSound Good (.call e args line) := by
  intro ps st st' d u hs hd h
  rw [evaluate] at h
  exact called_step h hs (compileCall_step he.evaluation (listSound_adjusted hargs)) hd.inUse

theorem exprSound_method {args : List Expr} (name : String) (line : Nat) (he : ExprSound Good e)
    (hargs : ItemsSound Good args (items args)) : ExprSound Good (.method e name args line) := by
  intro ps st st' d u hs hd h
  rw [evaluate] at h
  exact called_step h hs (compileMethod_step he.evaluation (listSound_adjusted hargs)) hd.inUse

theorem emitNewTable_step (h : emitAbc .newTable r 0 0 st = .ok u st') (hs : Sound Good ps st)
    (hr : r < st.top) : Step Good ps st st' st.top := by
  have htop := hs.top_le
  have hmax := hs.registers_le
  refine emitRegisters_step h hs rfl (by simp) ⟨rfl, rfl⟩ (by omega) ?_
  simp only [Opcode.runs, List.mem_singleton]
  rintro run rfl
  omega

theorem exprSound_table {fs : List Field} (line : Nat) (hfs : FieldsSound Good fs) :
    ExprSound Good (.table fs line) := by
  refine exprSound_of_single rfl (fun d => by rw [evaluate]) ?_
  intro ps st st' r u hs hr h
  simp only [bind_ok] at h
  obtain ⟨_, st₁, hline, inPlace, st₂, htop, h⟩ := h
  have hstep₁ := setLine_step hline hs
  have htop₁ := hstep₁.top_eq
  obtain ⟨rfl, hinPlace⟩ := isTop_ok htop hstep₁.sound
  split at h
  next hb =>
    obtain ⟨hrtop, hlevel⟩ := hinPlace hb
    simp only [bind_ok] at h
    obtain ⟨_, st₃, hnew, hentries⟩ := h
    have hstep₃ := hstep₁.trans (emitNewTable_step hnew hstep₁.sound (by omega))
    have htop₃ := hstep₃.top_eq
    have hlevel₃ : st₃.level ≤ r := by
      rw [hstep₃.level, ← hstep₁.level]
      exact hlevel
    exact (hstep₃.trans
      (hfs _ _ _ _ _ _ _ _ hstep₃.sound (by omega) hentries hlevel₃)).cast (by omega)
  next =>
    simp only [bind_ok] at h
    obtain ⟨table, st₃, hreserve, _, st₄, hnew, _, st₅, hentries, _, st₆, hmove, h⟩ := h
    obtain ⟨hstep₃', rfl⟩ := reserve_step hreserve hstep₁.sound
    have hstep₃ := hstep₁.trans hstep₃'
    have htop₃ := hstep₃.top_eq
    have hstep₄ := hstep₃.trans (emitNewTable_step hnew hstep₃.sound (by omega))
    have htop₄ := hstep₄.top_eq
    have hlevel := hs.level_le
    have hlevel₄ : st₄.level ≤ st₂.top := by
      rw [hstep₄.level]
      omega
    have hstep₅ := hstep₄.trans
      (hfs _ _ _ _ _ _ _ _ hstep₄.sound (by omega) hentries hlevel₄)
    have htop₅ := hstep₅.top_eq
    have hstep₆ := hstep₅.trans (emitMove_step hmove hstep₅.sound (by omega) (by omega))
    exact (release_saved h ⟨_, hstep₆⟩).cast htop₁

theorem exprSound_index (line : Nat) (he : ExprSound Good e) (hk : ExprSound Good k) :
    ExprSound Good (.index e k line) := by
  refine exprSound_of_single rfl (fun d => by rw [evaluate]) ?_
  intro ps st st' r u hs hr h
  simp only [bind_ok, free_ok, and_assoc, exists_and_left, exists_eq_left] at h
  obtain ⟨table, st₁, htable, place, st₂, hplace, h⟩ := h
  obtain ⟨t, hstep₁, hlt, hle⟩ := toAnyRegister_step htable hs he.evaluation
  obtain ⟨hstep₂', hbound⟩ := fieldPlace?_step hplace hstep₁.sound
  have hstep₂ := hstep₁.trans hstep₂'
  have htop₁ := hstep₁.top_eq
  have htop₂ := hstep₂.top_eq
  split at h
  next p =>
    simp only [bind_ok] at h
    obtain ⟨_, st₃, hline, _, st₄, hget, h⟩ := h
    have hline' := setLine_step hline hstep₂.sound
    have hstep₃ := hstep₂.trans hline'
    have htop₃ := hstep₃.top_eq
    have hp := hbound p rfl
    have hgrow := hline'.grows.constants_size_le
    have hstep₄ := hstep₃.trans
      (emitGetField_step hget hstep₃.sound (by omega) (by omega) (by omega))
    exact release_saved h ⟨_, hstep₄⟩
  next =>
    simp only [bind_ok] at h
    obtain ⟨key, st₃, hkey, _, st₄, hline, _, st₅, hget, h⟩ := h
    obtain ⟨t', hstep₃', hlt', hle'⟩ := toAnyRegister_step hkey hstep₂.sound hk.evaluation
    have hstep₃ := hstep₂.trans hstep₃'
    have hstep₄ := hstep₃.trans (setLine_step hline hstep₃.sound)
    have htop₃ := hstep₃.top_eq
    have htop₄ := hstep₄.top_eq
    have hstep₅ := hstep₄.trans (emitOperation_step hget hstep₄.sound rfl (by simp) ⟨rfl, rfl⟩ rfl
      (by omega) (by omega) (by omega))
    exact release_saved h ⟨_, hstep₅⟩

/-- A new closure of a child that is there. -/
theorem emitClosure_step {n : Nat} {q : Prototype} (h : emitAbx .closure r n st = .ok u st')
    (hs : Sound Good ps st) (hr : r < st.top) (hn : n ≤ Instruction.maxBx)
    (hq : st.current.proto.children[n]? = some q) (htakes : TakesCaptured st.current q) :
    Step Good ps st st' st.top := by
  obtain ⟨m, h⟩ := emitAbx_ok h
  have htop := hs.top_le
  have hop : (Instruction.abx .closure r n).opcode? = some .closure := Instruction.opcode?_abx _
  have hlt : n < st.current.proto.children.size := (Array.getElem?_eq_some_iff.mp hq).1
  have hfit : (Instruction.abx .closure r n).OperandsFit st.current.proto .closure :=
    operandsFit_closure (by omega) hs.registers_le hlt hn
  refine ⟨emit_sound h hs hop (by simp)
    ⟨(emit_grows h hs).operandsFit hfit, by simp [Instruction.targets], by simp, by simp, by simp⟩,
    emit_keeps h hs hop ⟨by simp, by simp [Instruction.targets], by simp, fun _ => ⟨q, ?_, ?_⟩⟩,
    emit_top h hs⟩
  · rw [Instruction.bx_abx _ hn]
    exact (emit_grows h hs).children _ _ hq
  · rw [(emit_adds h hs).locals]
    exact htakes

/-- A function that was compiled, as a closure in a register. -/
theorem closureOf_step {f : Function}
    (h : (do
      let place ← function f
      setLine line
      emitAbx .closure r place) st = .ok u st')
    (hs : Sound Good ps st) (hf : FunctionSound Good f) (hr : r < st.top) :
    Step Good ps st st' st.top := by
  simp only [bind_ok] at h
  obtain ⟨place, st₁, hfunction, _, st₂, hline, h⟩ := h
  obtain ⟨hstep₁, hn, -, q, hq, htakes⟩ := hf _ _ _ _ hs hfunction
  have hline' := setLine_step hline hstep₁.sound
  have hstep₂ := hstep₁.trans hline'
  have htop₁ := hstep₁.top_eq
  have htop₂ := hstep₂.top_eq
  have htakes' : TakesCaptured st₂.current q := by
    unfold TakesCaptured
    rw [hline'.keeps.current.locals]
    exact htakes
  exact (hstep₂.trans (emitClosure_step h hstep₂.sound (by omega) hn
    (hline'.grows.children _ _ hq) htakes')).cast (by omega)

theorem exprSound_function {f : Function} (hf : FunctionSound Good f) :
    ExprSound Good (.function f) := by
  obtain ⟨name, params, variadic, body, line, endLine⟩ := f
  exact exprSound_of_single rfl (fun d => by rw [evaluate])
    fun _ _ _ _ _ hs hr h => closureOf_step h hs hf hr

/-! ## Lists of expressions -/

theorem itemsSound_nil : ItemsSound Good [] (items []) := by
  intro last ps st st' u hs h
  rw [items, pure_ok] at h
  obtain ⟨-, rfl⟩ := h
  exact .refl hs

theorem itemsTop_cons (e : Expr) (rest : List Expr) (last : Option Nat) (top : Nat)
    (h : rest.isEmpty = false ∨ e.isMultiple = false) :
    itemsTop (e :: rest) last top = itemsTop rest last (top + 1) := by
  cases rest with
  | nil =>
    have hsingle := h.resolve_left (by simp)
    simp [itemsTop, hsingle]
  | cons e' rest =>
    unfold itemsTop
    rw [List.getLast?_cons_cons]
    cases hlast : (e' :: rest).getLast? with
    | none => simp at hlast
    | some x =>
      simp only [List.length_cons]
      split <;> omega

theorem itemsSound_cons {rest : List Expr} (he : ExprSound Good e)
    (hrest : ItemsSound Good rest (items rest)) :
    ItemsSound Good (e :: rest) (items (e :: rest)) := by
  intro last ps st st' u hs h
  rw [items] at h
  split at h
  next hlast =>
    simp only [Bool.and_eq_true] at hlast
    obtain ⟨hempty, hmultiple⟩ := hlast
    obtain rfl : rest = [] := List.isEmpty_iff.mp hempty
    simp only [bind_ok] at h
    obtain ⟨_, st₁, hvalue, h⟩ := h
    have hstep := he _ _ _ (.values last) _ hs trivial hvalue
    refine (hstep.trans (hrest _ _ _ _ _ hstep.sound h)).cast ?_
    rw [hstep.top_eq, hmultiple]
    cases last <;> simp [itemsTop, hmultiple, Destination.after]
  next hlast =>
    simp only [bind_ok] at h
    obtain ⟨r, st₁, hvalue, h⟩ := h
    have hstep := (toTemporary_step hvalue hs he.evaluation).1
    refine (hstep.trans (hrest _ _ _ _ _ hstep.sound h)).cast ?_
    rw [hstep.top_eq]
    refine (itemsTop_cons e rest last st.top ?_).symm
    cases hrest : rest.isEmpty
    · exact .inl rfl
    · cases hmultiple : e.isMultiple
      · exact .inr rfl
      · exact absurd (by simp [hrest, hmultiple]) hlast

/-! ## Table constructors -/

/-- The two words that store items, after which the state is sound again. -/
theorem emitSetList_step {table count stored : Nat} {u' : Unit}
    (hlist : emitAbc .setList table count 0 st = .ok u st₁)
    (h : emitExtra stored st₁ = .ok u' st') (hs : Sound Good ps st)
    (hcount : table + count < st.top) : Step Good ps st st' st.top := by
  obtain ⟨n, hlist⟩ := emitAbc_ok hlist
  simp only [emitExtra, bind_ok, pure_ok] at h
  obtain ⟨m, st₂, h, -, rfl⟩ := h
  obtain ⟨-, rfl⟩ := emit_ok hlist
  obtain ⟨-, rfl⟩ := emit_ok h
  have htop := hs.top_le
  have hmax := hs.registers_le
  have hfit : (Instruction.abc .setList table count 0).OperandsFit st.current.proto .setList := by
    refine operandsFit_abc (.of_registers ?_ rfl rfl) (by omega) (by omega) (by omega) (by simp)
      (by simp)
    simp only [Opcode.runs, List.mem_singleton]
    rintro run rfl
    exact .inr (by omega)
  have hplain : ∀ {s : FunctionScope} {i : Instruction} {first stop n : Nat} {op : Opcode},
      op = .setList ∨ op = .extra → s.PlainWord first stop n i op := by
    rintro s i first stop n op (rfl | rfl) <;>
      exact ⟨by simp, by simp [Instruction.targets], by simp, by simp⟩
  have hkeeps : st.current.Keeps (st.current.written (.abc .setList table count 0) st.line) :=
    .written (Instruction.opcode?_abc .setList) (hplain (.inl rfl))
  have hkeeps' : st.current.Keeps ((st.current.written (.abc .setList table count 0)
      st.line).written (.ofAx .extra stored) st.line) :=
    hkeeps.trans (.written (Instruction.opcode?_ofAx .extra) (hplain (.inr rfl)))
  let both : FunctionScope → FunctionScope := fun s =>
    (s.written (.abc .setList table count 0) st.line).written (.ofAx .extra stored) st.line
  have heq : ((st.mapCurrent fun s => s.written (.abc .setList table count 0) st.line).mapCurrent
      fun s => s.written (.ofAx .extra stored) st.line) = st.mapCurrent both := by
    unfold State.mapCurrent
    rw [List.modifyHead_modifyHead]
    rfl
  change Step Good ps st ((st.mapCurrent fun s => s.written _ st.line).mapCurrent
      fun s => s.written _ st.line) st.top
  rw [heq]
  refine ⟨hs.mapCurrent (hs.current.written_setList hfit) rfl,
    .mapCurrent hs.exists_scope hkeeps' rfl, ?_⟩
  unfold State.top
  rw [State.current_mapCurrent hs.exists_scope]
  rfl

theorem storeItems_step {table count stored : Nat}
    (h : storeItems table count stored line st = .ok u st') (hs : Sound Good ps st)
    (hcount : table + count < st.top) :
    Step Good ps st st' (table + 1) := by
  simp only [storeItems, bind_ok] at h
  obtain ⟨_, st₁, hline, _, st₂, hlist, _, st₃, hextra, h⟩ := h
  have hstep₁ := setLine_step hline hs
  have htop := hstep₁.top_eq
  exact release_saved h
    ⟨_, hstep₁.trans (emitSetList_step hlist hextra hstep₁.sound (by omega))⟩

theorem fieldsSound_nil : FieldsSound Good [] := by
  intro ps st st' table line pending stored u hs htop h _
  rw [fields] at h
  split at h
  · exact storeItems_step h hs (by omega)
  · simp only [pure_ok] at h
    obtain ⟨-, rfl⟩ := h
    exact (Step.refl hs).cast (by omega)

theorem fieldsSound_pair {rest : List Field} (hk : ExprSound Good k) (he : ExprSound Good e)
    (hrest : FieldsSound Good rest) : FieldsSound Good (.pair k e :: rest) := by
  intro ps st st' table line pending stored u hs htop h hlevel
  rw [fields] at h
  simp only [bind_ok, free_ok, and_assoc, exists_and_left, exists_eq_left] at h
  obtain ⟨place, st₁, hplace, h⟩ := h
  obtain ⟨hstep₁, hbound⟩ := fieldPlace?_step hplace hs
  have htop₁ := hstep₁.top_eq
  have hgoon : ∀ {st₂ : State} {t : Nat}, Step Good ps st st₂ t → ∀ {u' : Unit} {st₃ : State},
      release st.top st₂ = .ok u' st₃ → fields rest table line pending stored st₃ = .ok u st' →
      Step Good ps st st' (table + 1) := by
    intro st₂ t hstep₂ u' st₃ hrelease h
    have hstep₃ := release_saved hrelease ⟨_, hstep₂⟩
    have htop₃ := hstep₃.top_eq
    refine hstep₃.trans (hrest _ _ _ _ _ _ _ _ hstep₃.sound (by omega) h ?_)
    rw [hstep₃.level]
    exact hlevel
  split at h
  next p =>
    simp only [bind_ok] at h
    obtain ⟨value, st₂, hvalue, _, st₃, hline, _, st₄, hset, _, st₅, hrelease, h⟩ := h
    obtain ⟨t, hstep₂', hlt, hle⟩ := toAnyRegister_step hvalue hstep₁.sound he.evaluation
    have hline' := setLine_step hline hstep₂'.sound
    have hstep₃ := (hstep₁.trans hstep₂').trans hline'
    have htop₂ := hstep₂'.top_eq
    have htop₃ := hstep₃.top_eq
    have hp := hbound p rfl
    have hgrow := (hstep₂'.trans hline').grows.constants_size_le
    exact hgoon (hstep₃.trans
      (emitSetField_step hset hstep₃.sound (by omega) (by omega) (by omega))) hrelease h
  next =>
    simp only [bind_ok] at h
    obtain ⟨key, st₂, hkey, value, st₃, hvalue, _, st₄, hline, _, st₅, hset, _, st₆, hrelease,
      h⟩ := h
    obtain ⟨t, hstep₂', hlt, hle⟩ := toAnyRegister_step hkey hstep₁.sound hk.evaluation
    have hstep₂ := hstep₁.trans hstep₂'
    obtain ⟨t', hstep₃', hlt', hle'⟩ := toAnyRegister_step hvalue hstep₂.sound he.evaluation
    have hstep₃ := hstep₂.trans hstep₃'
    have hstep₄ := hstep₃.trans (setLine_step hline hstep₃.sound)
    have htop₂ := hstep₂.top_eq
    have htop₃ := hstep₃.top_eq
    have htop₄ := hstep₄.top_eq
    exact hgoon (hstep₄.trans (emitOperation_step hset hstep₄.sound rfl (by simp) ⟨rfl, rfl⟩ rfl
      (by omega) (by omega) (by omega))) hrelease h

theorem fieldsSound_item {rest : List Field} (he : ExprSound Good e)
    (hrest : FieldsSound Good rest) : FieldsSound Good (.item e :: rest) := by
  intro ps st st' table line pending stored u hs htop h hlevel
  rw [fields] at h
  split at h
  next hlast =>
    simp only [Bool.and_eq_true] at hlast
    simp only [bind_ok] at h
    obtain ⟨_, st₁, hvalue, _, st₂, hstore, h⟩ := h
    have hstep₁ := he _ _ _ (.values none) _ hs trivial hvalue
    have htop₁ := hstep₁.top_eq
    rw [hlast.2] at htop₁
    have htop₁' : st₁.top = st.top := htop₁
    have hstep₂ := hstep₁.trans (storeItems_step hstore hstep₁.sound (by omega))
    have htop₂ := hstep₂.top_eq
    refine hstep₂.trans (hrest _ _ _ _ _ _ _ _ hstep₂.sound htop₂ h ?_)
    rw [hstep₂.level]
    exact hlevel
  next =>
    simp only [bind_ok] at h
    obtain ⟨r, st₁, hvalue, h⟩ := h
    have hstep₁ := (toTemporary_step hvalue hs he.evaluation).1
    have htop₁ := hstep₁.top_eq
    split at h
    next =>
      simp only [bind_ok] at h
      obtain ⟨_, st₂, hstore, h⟩ := h
      have hstep₂ := hstep₁.trans (storeItems_step hstore hstep₁.sound (by omega))
      have htop₂ := hstep₂.top_eq
      refine hstep₂.trans (hrest _ _ _ _ _ _ _ _ hstep₂.sound htop₂ h ?_)
      rw [hstep₂.level]
      exact hlevel
    next =>
      refine hstep₁.trans (hrest _ _ _ _ _ _ _ _ hstep₁.sound (by omega) h ?_)
      rw [hstep₁.level]
      exact hlevel

end Generator
end LuaMachine
