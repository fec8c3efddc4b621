import LuaMachine.Proofs.Generator.Generation
import LuaMachine.Proofs.Scoping.Values
/-! # Expressions without defects

One lemma for each form of expression: if the places inside of it are places of a program that was
analyzed, compiling it ends in no defect.

* `Setting`: the places of a program, with what is known of them.
* `ExprFlawless`, `FieldsFlawless`, `FunctionFlawless`: the statements, for trees of each kind.
* `exprFlawless_unary`, `exprFlawless_binary` and the like: the cases of the induction.
-/
set_option autoImplicit false

namespace LuaMachine

/-- The prototype is of a function at one of these places, and what it takes from registers are
captured variables in scope there. -/
def Prototype.Closes (captured : Std.HashSet Nat) (places : List Site) (q : Prototype) : Prop :=
  ∃ env name params variadic body line endLine,
    Site.function env (.mk name params variadic body line endLine) ∈ places ∧
    q.header = (name, line, params.length, variadic) ∧
    ∀ u ∈ q.upvalues, u.fromRegister = true → ∃ b : Binder,
      env.own.reverse[u.index]? = some (.declared b) ∧ b.name = u.name ∧
        captured.contains b.number = true

namespace Generator

/-- The prototype is what the compiler made of a function at one of these places. -/
def Stems (captured : Std.HashSet Nat) (places : List Site) (q : Prototype) : Prop :=
  ∃ env name params variadic body line endLine proto fresh outer line' st,
    Site.function env (.mk name params variadic body line endLine) ∈ places ∧
    Fresh fresh outer ∧ FunctionScope.Nested outer ∧
    functionBody proto params (statements true body) endLine
      ⟨FunctionScope.create fresh :: outer, line', captured⟩ = .ok () st ∧
    q = st.current.proto

/-- The captured binders and the places of a program that the analysis accepts, and what is to be
shown of the functions inside of others. -/
structure Setting where
  captured : Std.HashSet Nat
  places : List Site
  heeded : ∀ s ∈ places, s.Heeded captured
  regular : ∀ s ∈ places, s.Regular
  child : Prototype → Prop := Prototype.Closes captured places
  child_of : ∀ q : Prototype, q.Closes captured places → Stems captured places q → child q := by
    exact fun _ h _ => h

namespace Setting

variable (S : Setting)

abbrev At (env : Surroundings) (ps : List Nat) (st : State) : Prop :=
  Generator.At Prototype.WellFormed S.captured env ps st

abbrev Flawless {α : Type} (act : Gen α) (st : State) : Prop :=
  Generator.Flawless S.child act st

abbrev Evaluates (env : Surroundings) (e : Evaluation) : Prop :=
  Generator.Evaluates Prototype.WellFormed S.child S.captured env e

abbrev ItemsOf (env : Surroundings) (es : List Expr) : Prop :=
  Generator.ItemsOf Prototype.WellFormed S.child S.captured env es (items es)

end Setting

/-! ## The statements -/

variable {S : Setting}

def ExprFlawless (S : Setting) (e : Expr) : Prop :=
  ∀ env, Sites.expr env e ⊆ S.places → ∀ ps st d, S.At env ps st → d.Fits e st.top →
    S.Flawless (evaluate e d) st

def ItemsFlawless (S : Setting) (es : List Expr) : Prop :=
  ∀ env, Sites.exprs env es ⊆ S.places → ∀ last ps st, S.At env ps st →
    S.Flawless (items es last) st

/-- The entries go to a table with `pending` items above it. -/
def FieldsFlawless (S : Setting) (fs : List Field) : Prop :=
  ∀ env, Sites.fields env fs ⊆ S.places → ∀ ps st table line pending stored, S.At env ps st →
    st.top = table + 1 + pending → st.level ≤ table →
    S.Flawless (fields fs table line pending stored) st

def FunctionFlawless (S : Setting) (f : Function) : Prop :=
  ∀ env, Sites.function env f ⊆ S.places → ∀ ps st, S.At env ps st → S.Flawless (function f) st

variable {env : Surroundings} {ps : List Nat} {st st' st₁ : State} {u : Unit}
  {line r : Nat} {e a b k : Expr} {d : Destination}

theorem ExprFlawless.evaluates (h : ExprFlawless S e) (hsites : Sites.expr env e ⊆ S.places) :
    S.Evaluates env fun t => evaluate e (.register t) where
  sound := (exprSound closed_wellFormed e).evaluation
  flawless ps st r hat hr := h env hsites ps st (.register r) hat hr

theorem ItemsFlawless.itemsOf {es : List Expr} (h : ItemsFlawless S es)
    (hsites : Sites.exprs env es ⊆ S.places) : S.ItemsOf env es where
  sound := itemsSound closed_wellFormed es
  flawless := h env hsites

/-- A register that holds the value of an operand. -/
theorem operand_flawless (h : S.At env ps st) (he : ExprFlawless S e)
    (hsites : Sites.expr env e ⊆ S.places) :
    S.Flawless (toAnyRegister e fun t => evaluate e (.register t)) st :=
  toAnyRegister_flawless h (he.evaluates hsites) fun s hs => S.heeded s (hsites hs)

theorem operand_step {e : Expr} {ps : List Nat} {st st' : State} {r : Nat}
    (hok : toAnyRegister e (fun t => evaluate e (.register t)) st = .ok r st')
    (hs : Sound Prototype.WellFormed ps st) :
    ∃ t, Step Prototype.WellFormed ps st st' t ∧ r < t ∧ st.top ≤ t :=
  toAnyRegister_step hok hs (exprSound closed_wellFormed e).evaluation

/-- What evaluates an expression to a register is as sound as the expression is. -/
theorem evaluates_of_register {act : Evaluation}
    (hregister : ∀ r, evaluate e (.register r) = act r)
    (hact : ∀ ps st r, S.At env ps st → r < st.top → S.Flawless (act r) st) :
    S.Evaluates env act where
  sound ps st st' r u hs hr hok := by
    rw [← hregister] at hok
    exact exprSound closed_wellFormed e ps st st' (.register r) u hs hr hok
  flawless := hact

/-- An expression with one value, which an action leaves in a register. -/
theorem exprFlawless_of_single {act : Evaluation} (heq : ∀ d, evaluate e d = single line d act)
    (hact : ∀ env, Sites.expr env e ⊆ S.places → ∀ ps st r, S.At env ps st → r < st.top →
      S.Flawless (act r) st) : ExprFlawless S e := by
  intro env hsites ps st d h hd
  rw [heq]
  exact single_flawless h (evaluates_of_register (fun r => heq (.register r)) (hact env hsites))
    hd.inUse

/-! ## Constants and operators -/

theorem constant_flawless (S : Setting) (k : Constant) :
    S.Flawless (do
      setLine line
      loadConstant r k) st :=
  setLine_flawless.bind fun _ _ _ => loadConstant_flawless

theorem exprFlawless_literal (v : Literal) (line : Nat) : ExprFlawless S (.literal v line) :=
  exprFlawless_of_single (fun d => by rw [evaluate]) fun _ _ _ _ _ _ _ => constant_flawless S _

theorem exprFlawless_str (s : String) (line : Nat) : ExprFlawless S (.str s line) :=
  exprFlawless_of_single (fun d => by rw [evaluate]) fun _ _ _ _ _ _ _ => constant_flawless S _

theorem exprFlawless_unary (op : UnaryOp) (line : Nat) (he : ExprFlawless S e) :
    ExprFlawless S (.unary op e line) := by
  refine exprFlawless_of_single (fun d => by rw [evaluate]) fun env hsites ps st r h hr => ?_
  rw [Sites.expr] at hsites
  split
  · exact constant_flawless S _
  refine free_flawless.bind fun saved st₀ hfree => ?_
  obtain ⟨rfl, rfl⟩ := free_ok.mp hfree
  refine (operand_flawless h he hsites).bind fun operand st₁ hvalue => setLine_flawless.bind
    fun _ st₂ hline => emitAbc_flawless.bind fun _ st₃ hop => ?_
  obtain ⟨t, hstep₁, hlt, hle⟩ := operand_step hvalue h.sound
  have hstep₂ := hstep₁.trans (setLine_step hline hstep₁.sound)
  have htop₁ := hstep₁.top_eq
  have htop₂ := hstep₂.top_eq
  have hstep₃ := hstep₂.trans (emitUnary_step hop hstep₂.sound (by omega) (by omega))
  exact release_saved_flawless h.sound hstep₃ (by omega)

/-- `and` and `or`: the second operand is at the same place as the first one. -/
theorem shortCircuit_flawless {value : Nat} (hvalue : value < 256) (h : S.At env ps st)
    (ha : S.Evaluates env fun t => evaluate a (.register t))
    (hb : S.Evaluates env fun t => evaluate b (.register t)) (hr : r < st.top) :
    S.Flawless (do
      evaluate a (.register r)
      setLine line
      emitAbc .test r value 0
      let skip ← emitJump
      evaluate b (.register r)
      patchJumpHere skip) st := by
  refine (ha.flawless _ _ _ h hr).bind fun _ st₁ hleft => setLine_flawless.bind
    fun _ st₂ hline => emitAbc_flawless.bind fun _ st₃ htest => emitJump_flawless.bind
      fun skip st₄ hjump => ?_
  have hstep₁ := ha.sound _ _ _ _ _ h.sound hr hleft
  have hstep₂ := hstep₁.trans (setLine_step hline hstep₁.sound)
  have htop₁ := hstep₁.top_eq
  have htop₂ := hstep₂.top_eq
  have hregisters := hstep₂.sound.top_le
  obtain ⟨hsound, hkeeps, htop₄, -⟩ :=
    emitTest_step htest hjump hstep₂.sound (by omega) hvalue
  have hstep₄ : Step Prototype.WellFormed ps st st₄ st.top :=
    ⟨hsound, hstep₂.keeps.trans hkeeps, by omega⟩
  exact (hb.flawless _ _ _ (h.step hstep₄) (by omega)).bind fun _ _ _ => patchJumpHere_flawless

theorem concat_flawless (h : S.At env ps st) (ha : ExprFlawless S a) (hb : ExprFlawless S b)
    (hsites : Sites.expr env a ⊆ S.places ∧ Sites.expr env b ⊆ S.places) (hr : r < st.top) :
    S.Flawless (do
      let base ← reserve (chainLength b + 1) line
      evaluate a (.register base)
      evaluate b (.part (base + 1))
      setLine line
      emitAbc .concat r base (chainLength b + 1)
      release base) st := by
  refine reserve_flawless.bind fun base st₁ hreserve => ?_
  obtain ⟨hstep₁, rfl⟩ := reserve_step hreserve h.sound
  have htop₁ := hstep₁.top_eq
  have ha' := ha.evaluates hsites.1
  refine (ha'.flawless _ _ _ (h.step hstep₁) (by omega)).bind fun _ st₂ hleft => ?_
  have hstep₂ := hstep₁.trans (ha'.sound _ _ _ _ _ hstep₁.sound (by omega) hleft)
  have htop₂ := hstep₂.top_eq
  have hfits : (Destination.part (st.top + 1)).Fits b st₂.top := by
    change st.top + 1 + chainLength b ≤ st₂.top
    omega
  refine (hb env hsites.2 _ _ _ (h.step hstep₂) hfits).bind fun _ st₃ hright =>
    setLine_flawless.bind fun _ st₄ hline => emitAbc_flawless.bind fun _ st₅ hop => ?_
  have hstep₃ := hstep₂.trans
    (exprSound closed_wellFormed b _ _ _ _ _ hstep₂.sound hfits hright)
  have htop₃ : st₃.top = st₂.top := hstep₃.top_eq
  have hstep₄ := hstep₃.trans (setLine_step hline hstep₃.sound)
  have htop₄ := hstep₄.top_eq
  have hregisters := hstep₄.sound.top_le
  have hmax := hstep₄.sound.registers_le
  have hstep₅ := hstep₄.trans (emitRegisters_step hop hstep₄.sound rfl (by simp) ⟨rfl, rfl⟩
    (by omega) (by
      simp only [Opcode.runs, List.mem_cons, List.not_mem_nil, or_false]
      rintro run (rfl | rfl) <;> omega))
  exact release_saved_flawless h.sound hstep₅ (by omega)

theorem operator_flawless {op : BinaryOp} (hop : op ≠ .and ∧ op ≠ .or ∧ op ≠ .concat)
    (h : S.At env ps st) (ha : ExprFlawless S a) (hb : ExprFlawless S b)
    (hsites : Sites.expr env a ⊆ S.places ∧ Sites.expr env b ⊆ S.places) (hr : r < st.top) :
    S.Flawless (do
      let saved ← free
      let left ← toAnyRegister a fun t => evaluate a (.register t)
      let right ← toAnyRegister b fun t => evaluate b (.register t)
      setLine line
      emitBinary op r left right
      release saved) st := by
  refine free_flawless.bind fun saved st₀ hfree => ?_
  obtain ⟨rfl, rfl⟩ := free_ok.mp hfree
  refine (operand_flawless h ha hsites.1).bind fun left st₁ hleft => ?_
  obtain ⟨t₁, hstep₁, hlt₁, hle₁⟩ := operand_step hleft h.sound
  refine (operand_flawless (h.step hstep₁) hb hsites.2).bind fun right st₂ hright =>
    setLine_flawless.bind fun _ st₃ hline => (emitBinary_flawless hop).bind
      fun _ st₄ hemit => ?_
  obtain ⟨t₂, hstep₂', hlt₂, hle₂⟩ := operand_step hright hstep₁.sound
  have hstep₂ := hstep₁.trans hstep₂'
  have hstep₃ := hstep₂.trans (setLine_step hline hstep₂.sound)
  have htop₁ := hstep₁.top_eq
  have htop₂ := hstep₂.top_eq
  have htop₃ := hstep₃.top_eq
  have hstep₄ := hstep₃.trans
    (emitBinary_step hemit hstep₃.sound (by omega) (by omega) (by omega))
  exact release_saved_flawless h.sound hstep₄ (by omega)

theorem exprFlawless_binary (op : BinaryOp) (line : Nat) (ha : ExprFlawless S a)
    (hb : ExprFlawless S b) : ExprFlawless S (.binary op a b line) := by
  intro env hsites ps st d h hd
  have hsites' := hsites
  rw [Sites.expr, List.append_subset] at hsites'
  by_cases hpart : op = .concat ∧ ∃ r, d = .part r
  · obtain ⟨rfl, r, rfl⟩ := hpart
    have hle : r + (chainLength b + 1) ≤ st.top := hd
    have ha' := ha.evaluates hsites'.1
    rw [evaluate]
    refine (ha'.flawless _ _ _ h (by omega)).bind fun _ st₁ hleft => ?_
    have hstep := ha'.sound _ _ _ _ _ h.sound (by omega) hleft
    refine hb env hsites'.2 _ _ _ (h.step hstep) ?_
    have htop := hstep.top_eq
    change r + 1 + chainLength b ≤ st₁.top
    omega
  · have hne : ∀ r, d = .part r → op = .concat → False := fun r hr hop => hpart ⟨hop, r, hr⟩
    rw [evaluate]
    · refine single_flawless h (evaluates_of_register (e := .binary op a b line) ?_ ?_) hd.inUse
      · intro r
        rw [evaluate]
        · rfl
        · simp
      intro ps st r h hr
      split
      · exact constant_flawless S _
      split
      · exact shortCircuit_flawless (by decide) h (ha.evaluates hsites'.1)
          (hb.evaluates hsites'.2) hr
      · exact shortCircuit_flawless (by decide) h (ha.evaluates hsites'.1)
          (hb.evaluates hsites'.2) hr
      · exact concat_flawless h ha hb hsites' hr
      next hand hor hconcat =>
        exact operator_flawless ⟨hand, hor, hconcat⟩ h ha hb hsites' hr
    · exact hne

/-! ## Names, calls and tables -/

theorem exprFlawless_name (n : String) (line : Nat) : ExprFlawless S (.name n line) :=
  exprFlawless_of_single (fun d => by rw [evaluate]) fun env hsites _ _ _ h hr =>
    compileName_flawless h (S.heeded _ (hsites (by simp [Sites.expr]))) hr

theorem exprFlawless_vararg (line : Nat) : ExprFlawless S (.vararg line) := by
  intro env _ ps st d _ _
  rw [evaluate]
  exact compileVararg_flawless

theorem exprFlawless_paren (line : Nat) (he : ExprFlawless S e) :
    ExprFlawless S (.paren e line) :=
  exprFlawless_of_single (fun d => by rw [evaluate]) fun env hsites => by
    rw [Sites.expr] at hsites
    exact (he.evaluates hsites).flawless

theorem exprFlawless_call {args : List Expr} (line : Nat) (he : ExprFlawless S e)
    (hargs : ItemsFlawless S args) : ExprFlawless S (.call e args line) := by
  intro env hsites ps st d h hd
  rw [Sites.expr, List.append_subset] at hsites
  rw [evaluate]
  exact called_flawless h (callsOn_compileCall (he.evaluates hsites.1)
    (listsOf_adjusted (hargs.itemsOf hsites.2))) hd.inUse

theorem exprFlawless_method {args : List Expr} (name : String) (line : Nat)
    (he : ExprFlawless S e) (hargs : ItemsFlawless S args) :
    ExprFlawless S (.method e name args line) := by
  intro env hsites ps st d h hd
  rw [Sites.expr, List.append_subset] at hsites
  rw [evaluate]
  exact called_flawless h (callsOn_compileMethod (he.evaluates hsites.1)
    (listsOf_adjusted (hargs.itemsOf hsites.2))) hd.inUse

theorem exprFlawless_table {fs : List Field} (line : Nat) (hfs : FieldsFlawless S fs) :
    ExprFlawless S (.table fs line) := by
  refine exprFlawless_of_single (fun d => by rw [evaluate]) fun env hsites ps st r h hr => ?_
  rw [Sites.expr] at hsites
  refine setLine_flawless.bind fun _ st₁ hline => isTop_flawless.bind fun inPlace st₂ htop => ?_
  have hstep₁ := setLine_step hline h.sound
  have htop₁ := hstep₁.top_eq
  obtain ⟨rfl, hinPlace⟩ := isTop_ok htop hstep₁.sound
  refine .ite (fun hb => emitAbc_flawless.bind fun _ st₃ hnew => ?_) fun _ => ?_
  · obtain ⟨hrtop, hlevel⟩ := hinPlace hb
    have hstep₃ := hstep₁.trans (emitNewTable_step hnew hstep₁.sound (by omega))
    have htop₃ := hstep₃.top_eq
    have hlevel₁ := hstep₁.level
    have hlevel₃ := hstep₃.level
    exact hfs env hsites _ _ _ _ _ _ (h.step hstep₃) (by omega) (by omega)
  · refine reserve_flawless.bind fun table st₃ hreserve => emitAbc_flawless.bind
      fun _ st₄ hnew => ?_
    obtain ⟨hstep₃', rfl⟩ := reserve_step hreserve hstep₁.sound
    have hstep₃ := hstep₁.trans hstep₃'
    have htop₃ := hstep₃.top_eq
    have hstep₄ := hstep₃.trans (emitNewTable_step hnew hstep₃.sound (by omega))
    have htop₄ := hstep₄.top_eq
    have hlevel := h.sound.level_le
    have hlevel₄ : st₄.level ≤ st₂.top := by
      rw [hstep₄.level]
      omega
    refine (hfs env hsites _ _ _ _ _ _ (h.step hstep₄) (by omega) hlevel₄).bind
      fun _ st₅ hentries => emitAbc_flawless.bind fun _ st₆ hmove => ?_
    have hstep₅ := hstep₄.trans (fieldsSound closed_wellFormed fs _ _ _ _ _ _ _ _ hstep₄.sound
      (by omega) hentries hlevel₄)
    have htop₅ := hstep₅.top_eq
    have hstep₆ := hstep₅.trans (emitMove_step hmove hstep₅.sound (by omega) (by omega))
    have htop₆ := hstep₆.top_eq
    have hlevel₆ := hstep₆.level
    exact release_flawless hstep₆.sound (by omega) (by omega)

theorem exprFlawless_index (line : Nat) (he : ExprFlawless S e) (hk : ExprFlawless S k) :
    ExprFlawless S (.index e k line) := by
  refine exprFlawless_of_single (fun d => by rw [evaluate]) fun env hsites ps st r h hr => ?_
  rw [Sites.expr, List.append_subset] at hsites
  refine free_flawless.bind fun saved st₀ hfree => ?_
  obtain ⟨rfl, rfl⟩ := free_ok.mp hfree
  refine (operand_flawless h he hsites.1).bind fun table st₁ htable => fieldPlace?_flawless.bind
    fun place st₂ hplace => ?_
  obtain ⟨t, hstep₁, hlt, hle⟩ := operand_step htable h.sound
  obtain ⟨hstep₂', hbound⟩ := fieldPlace?_step hplace hstep₁.sound
  have hstep₂ := hstep₁.trans hstep₂'
  have htop₁ := hstep₁.top_eq
  have htop₂ := hstep₂.top_eq
  split
  next p =>
    refine setLine_flawless.bind fun _ st₃ hline => emitAbc_flawless.bind fun _ st₄ hget => ?_
    have hline' := setLine_step hline hstep₂.sound
    have hstep₃ := hstep₂.trans hline'
    have htop₃ := hstep₃.top_eq
    have hp := hbound p rfl
    have hgrow := hline'.grows.constants_size_le
    have hstep₄ := hstep₃.trans
      (emitGetField_step hget hstep₃.sound (by omega) (by omega) (by omega))
    exact release_saved_flawless h.sound hstep₄ (by omega)
  next =>
    refine (operand_flawless (h.step hstep₂) hk hsites.2).bind fun key st₃ hkey =>
      setLine_flawless.bind fun _ st₄ hline => emitAbc_flawless.bind fun _ st₅ hget => ?_
    obtain ⟨t', hstep₃', hlt', hle'⟩ := operand_step hkey hstep₂.sound
    have hstep₃ := hstep₂.trans hstep₃'
    have hstep₄ := hstep₃.trans (setLine_step hline hstep₃.sound)
    have htop₃ := hstep₃.top_eq
    have htop₄ := hstep₄.top_eq
    have hstep₅ := hstep₄.trans (emitOperation_step hget hstep₄.sound rfl (by simp) ⟨rfl, rfl⟩ rfl
      (by omega) (by omega) (by omega))
    exact release_saved_flawless h.sound hstep₅ (by omega)

theorem closureOf_flawless {f : Function} (h : S.At env ps st) (hf : FunctionFlawless S f)
    (hsites : Sites.function env f ⊆ S.places) :
    S.Flawless (do
      let place ← function f
      setLine line
      emitAbx .closure r place) st :=
  (hf env hsites _ _ h).bind fun _ _ _ => setLine_flawless.bind fun _ _ _ => emitAbx_flawless

theorem exprFlawless_function {f : Function} (hf : FunctionFlawless S f) :
    ExprFlawless S (.function f) := by
  obtain ⟨name, params, variadic, body, line, endLine⟩ := f
  refine exprFlawless_of_single (fun d => by rw [evaluate]) fun env hsites ps st r h hr => ?_
  rw [Sites.expr] at hsites
  exact closureOf_flawless h hf hsites

/-! ## Lists of expressions -/

theorem itemsFlawless_nil : ItemsFlawless S [] := by
  intro env _ last ps st _
  rw [items]
  exact .pure ()

theorem itemsFlawless_cons {rest : List Expr} (he : ExprFlawless S e)
    (hrest : ItemsFlawless S rest) : ItemsFlawless S (e :: rest) := by
  intro env hsites last ps st h
  rw [Sites.exprs, List.append_subset] at hsites
  rw [items]
  refine .ite (fun _ => ?_) fun _ => ?_
  · refine (he env hsites.1 _ _ (.values last) h trivial).bind fun _ st₁ hvalue => ?_
    have hstep := exprSound closed_wellFormed e _ _ _ (.values last) _ h.sound trivial hvalue
    exact hrest env hsites.2 _ _ _ (h.step hstep)
  · have he' := he.evaluates hsites.1
    refine (toTemporary_flawless h he').bind fun r st₁ hvalue => ?_
    exact hrest env hsites.2 _ _ _ (h.step (toTemporary_step hvalue h.sound he'.sound).1)

/-! ## Table constructors -/

theorem storeItems_flawless {table count stored : Nat} (hs : Sound Prototype.WellFormed ps st)
    (hlevel : st.level ≤ table) (hcount : table + count < st.top) :
    S.Flawless (storeItems table count stored line) st := by
  refine setLine_flawless.bind fun _ st₁ hline => emitAbc_flawless.bind fun _ st₂ hlist =>
    emitExtra_flawless.bind fun _ st₃ hextra => ?_
  have hstep₁ := setLine_step hline hs
  have htop₁ := hstep₁.top_eq
  have hstep := hstep₁.trans (emitSetList_step hlist hextra hstep₁.sound (by omega))
  have htop := hstep.top_eq
  have hlevel' := hstep.level
  exact release_flawless hstep.sound (by omega) (by omega)

theorem fieldsFlawless_nil : FieldsFlawless S [] := by
  intro env _ ps st table line pending stored h htop hlevel
  rw [fields]
  exact .ite (fun _ => storeItems_flawless h.sound hlevel (by omega)) fun _ => .pure ()

theorem fieldsFlawless_pair {rest : List Field} (hk : ExprFlawless S k) (he : ExprFlawless S e)
    (hrest : FieldsFlawless S rest) : FieldsFlawless S (.pair k e :: rest) := by
  intro env hsites ps st table line pending stored h htop hlevel
  rw [Sites.fields, Sites.field, List.append_subset, List.append_subset] at hsites
  obtain ⟨⟨hsites₁, hsites₂⟩, hsites₃⟩ := hsites
  -- whatever way the entry goes, the registers that it took are given back
  have hgoon : ∀ {st₂ : State} {t : Nat}, Step Prototype.WellFormed ps st st₂ t → st.top ≤ t →
      S.Flawless (do
        release st.top
        fields rest table line pending stored) st₂ := by
    intro st₂ t hstep hle
    refine (release_saved_flawless h.sound hstep hle).bind fun _ st₃ hrelease => ?_
    have hstep₃ := release_saved hrelease ⟨_, hstep⟩
    have htop₃ := hstep₃.top_eq
    have hlevel₃ := hstep₃.level
    exact hrest env hsites₃ _ _ _ _ _ _ (h.step hstep₃) (by omega) (by omega)
  rw [fields]
  refine free_flawless.bind fun saved st₀ hfree => ?_
  obtain ⟨rfl, rfl⟩ := free_ok.mp hfree
  refine fieldPlace?_flawless.bind fun place st₁ hplace => ?_
  obtain ⟨hstep₁, hbound⟩ := fieldPlace?_step hplace h.sound
  have htop₁ := hstep₁.top_eq
  split
  next p =>
    refine (operand_flawless (h.step hstep₁) he hsites₂).bind fun value st₂ hvalue =>
      setLine_flawless.bind fun _ st₃ hline => emitAbc_flawless.bind fun _ st₄ hset => ?_
    obtain ⟨t, hstep₂', hlt, hle⟩ := operand_step hvalue hstep₁.sound
    have hline' := setLine_step hline hstep₂'.sound
    have hstep₃ := (hstep₁.trans hstep₂').trans hline'
    have htop₂ := hstep₂'.top_eq
    have htop₃ := hstep₃.top_eq
    have hp := hbound p rfl
    have hgrow := (hstep₂'.trans hline').grows.constants_size_le
    exact hgoon (hstep₃.trans
      (emitSetField_step hset hstep₃.sound (by omega) (by omega) (by omega))) (by omega)
  next =>
    refine (operand_flawless (h.step hstep₁) hk hsites₁).bind fun key st₂ hkey => ?_
    obtain ⟨t, hstep₂', hlt, hle⟩ := operand_step hkey hstep₁.sound
    have hstep₂ := hstep₁.trans hstep₂'
    refine (operand_flawless (h.step hstep₂) he hsites₂).bind fun value st₃ hvalue =>
      setLine_flawless.bind fun _ st₄ hline => emitAbc_flawless.bind fun _ st₅ hset => ?_
    obtain ⟨t', hstep₃', hlt', hle'⟩ := operand_step hvalue hstep₂.sound
    have hstep₃ := hstep₂.trans hstep₃'
    have hstep₄ := hstep₃.trans (setLine_step hline hstep₃.sound)
    have htop₂ := hstep₂.top_eq
    have htop₃ := hstep₃.top_eq
    have htop₄ := hstep₄.top_eq
    exact hgoon (hstep₄.trans (emitOperation_step hset hstep₄.sound rfl (by simp) ⟨rfl, rfl⟩ rfl
      (by omega) (by omega) (by omega))) (by omega)

theorem fieldsFlawless_item {rest : List Field} (he : ExprFlawless S e)
    (hrest : FieldsFlawless S rest) : FieldsFlawless S (.item e :: rest) := by
  intro env hsites ps st table line pending stored h htop hlevel
  rw [Sites.fields, Sites.field, List.append_subset] at hsites
  have hstored : ∀ {st₁ st₂ : State} {t count : Nat} {u : Unit},
      Step Prototype.WellFormed ps st st₁ t → table + count < st₁.top →
      storeItems table count stored line st₁ = .ok u st₂ → ∀ stored',
      S.Flawless (fields rest table line 0 stored') st₂ := by
    intro st₁ st₂ t count u hstep hcount hstore stored'
    have hstep₂ := hstep.trans (storeItems_step hstore hstep.sound hcount)
    have htop₂ := hstep₂.top_eq
    have hlevel₂ := hstep₂.level
    exact hrest env hsites.2 _ _ _ _ _ _ (h.step hstep₂) htop₂ (by omega)
  rw [fields]
  refine .ite (fun hlast => ?_) fun _ => ?_
  · simp only [Bool.and_eq_true] at hlast
    refine (he env hsites.1 _ _ (.values none) h trivial).bind fun _ st₁ hvalue => ?_
    have hstep₁ := exprSound closed_wellFormed e _ _ _ (.values none) _ h.sound trivial hvalue
    have htop₁ := hstep₁.top_eq
    rw [hlast.2] at htop₁
    have htop₁' : st₁.top = st.top := htop₁
    have hlevel₁ := hstep₁.level
    exact (storeItems_flawless hstep₁.sound (by omega) (by omega)).bind fun _ st₂ hstore =>
      hstored hstep₁ (by omega) hstore _
  · have he' := he.evaluates hsites.1
    refine (toTemporary_flawless h he').bind fun r st₁ hvalue => ?_
    have hstep₁ := (toTemporary_step hvalue h.sound he'.sound).1
    have htop₁ := hstep₁.top_eq
    have hlevel₁ := hstep₁.level
    refine .ite (fun _ => ?_) fun _ => ?_
    · exact (storeItems_flawless hstep₁.sound (by omega) (by omega)).bind fun _ st₂ hstore =>
        hstored hstep₁ (by omega) hstore _
    · exact hrest env hsites.2 _ _ _ _ _ _ (h.step hstep₁) (by omega) (by omega)

end Generator
end LuaMachine
