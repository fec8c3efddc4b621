import LuaMachine.Proofs.Generator.Generation
import LuaMachine.Proofs.Lowering.Emitting
/-! # The code that the compiler writes

Whatever the compiler writes for an expression has the shape that the expression tells. One lemma
for each form says so of actions that write the parts; so it holds whether constant parts are folded
or not.

* `Lowering.Lowers`, `Lowering.LowersTo`: actions that write the code of an expression.
* `Lowering.lowers_name`, `Lowering.lowers_operator` and the like: the forms that have one value.
-/
set_option autoImplicit false

namespace LuaMachine

/-- The registers of the destination are in use, and only what can have several values gives
several. -/
def Generator.Destination.Suits (d : Generator.Destination) (e : Expr) (top : Nat) : Prop :=
  match d with
  | .register r => r < top
  | .part r => r + Generator.chainLength e ≤ top
  | .values _ => e.isMultiple = true

theorem Generator.Destination.Suits.inUse {d : Generator.Destination} {e : Expr} {top : Nat}
    (h : d.Suits e top) : d.InUse top := by
  cases d with
  | register r => exact h
  | part r =>
    have hpos := Generator.chainLength_pos e
    have hle : r + Generator.chainLength e ≤ top := h
    change r < top
    omega
  | values count => trivial

namespace Lowering

open Generator

-- The equations of the shapes are derived once, here, and not by each lemma that first needs one.
attribute [local simp] Codes.eq_1 Row.eq_1 Entries.eq_1

/-! ## Actions that write code -/

/-- The action leaves a value in a register that is in use, by code of this shape. -/
def Lowers (Good : Prototype → Prop) (act : Evaluation)
    (part : Prototype → (String → Home) → Part) : Prop :=
  ∀ ⦃ps : List Nat⦄ ⦃st st' : State⦄ ⦃r : Nat⦄ ⦃u : Unit⦄, Sound Good ps st → r < st.top →
    act r st = .ok u st' →
    Emits Good ps st st' st.top fun p home => part p home r st.top st.size st'.size

def LowersTo (Good : Prototype → Prop) (e : Expr) (act : Destination → Gen Unit) : Prop :=
  ∀ ⦃ps : List Nat⦄ ⦃st st' : State⦄ ⦃d : Destination⦄ ⦃u : Unit⦄, Sound Good ps st →
    d.Suits e st.top → act d st = .ok u st' →
    Emits Good ps st st' (d.after e.isMultiple st.top) fun p home =>
      Codes p home e d st.top st.size st'.size

variable {Good : Prototype → Prop} {ps : List Nat} {st st' st₁ st₂ : State} {u : Unit}
  {line r t : Nat} {e a b k : Expr} {d : Destination} {act first second : Evaluation}
  {part part' : Prototype → (String → Home) → Part} {p : Prototype} {home : String → Home}

theorem Lowers.evaluationSound (h : Lowers Good act part) : EvaluationSound Good act :=
  fun _ _ _ _ _ hs hr hok => (h hs hr hok).step

theorem LowersTo.lowers {act : Destination → Gen Unit} (h : LowersTo Good e act) :
    Lowers Good (fun r => act (.register r)) fun p home r => Codes p home e (.register r) :=
  fun _ _ _ r _ hs hr hok => h hs (d := .register r) hr hok

/-- An expression with one value, which an action leaves in a register. -/
theorem lowersTo_single {q : Prototype → (String → Home) → Part}
    {whole : Destination → Gen Unit} (hmultiple : e.isMultiple = false)
    (hsingle : ∀ d, whole d = single line d act) (hact : Lowers Good act q)
    (hcodes : ∀ p home d t n n', InOne (q p home) d t n n' → Codes p home e d t n n') :
    LowersTo Good e whole := by
  intro ps st st' d u hs hd h
  rw [hsingle] at h
  cases d with
  | register r => exact (hact hs hd h).mono fun p home hp => hcodes p home (.register r) _ _ _ hp
  | part r => exact (hact hs hd.inUse h).mono fun p home hp => hcodes p home (.part r) _ _ _ hp
  | values count => cases hmultiple.symm.trans hd

/-! ## Registers for values -/

theorem toTemporary_emits (h : toTemporary line act st = .ok r st') (hs : Sound Good ps st)
    (hact : Lowers Good act part) :
    Emits Good ps st st' (st.top + 1) (fun p home =>
      part p home st.top (st.top + 1) st.size st'.size) ∧ r = st.top := by
  simp only [toTemporary, bind_ok, pure_ok] at h
  obtain ⟨r', st₁, hr, u, st₂, h, rfl, rfl⟩ := h
  obtain ⟨h₁, rfl⟩ := emits_reserve hr hs
  have htop := h₁.top_eq
  have h₂ := hact h₁.sound (by omega) h
  refine ⟨((h₁.trans h₂).cast htop).mono fun p home hp => ?_, rfl⟩
  obtain ⟨hsize, hpart⟩ := hp
  rw [hsize, htop] at hpart
  exact hpart

theorem toAnyRegister_emits (h : toAnyRegister e act st = .ok r st') (hs : Sound Good ps st)
    (hact : Lowers Good act part) :
    ∃ t, Emits Good ps st st' t (fun p home =>
      Operand home e (part p home) r st.top t st.size st'.size) ∧ r < t ∧ st.top ≤ t := by
  have htemporary : ∀ {st₁ line}, Emits Good ps st st₁ st.top (fun _ _ => st₁.size = st.size) →
      toTemporary line act st₁ = .ok r st' →
      ∃ t, Emits Good ps st st' t (fun p home =>
        Operand home e (part p home) r st.top t st.size st'.size) ∧ r < t ∧ st.top ≤ t := by
    intro st₁ line h₁ h
    obtain ⟨h₂, rfl⟩ := toTemporary_emits h h₁.sound hact
    have htop := h₁.top_eq
    refine ⟨_, (h₁.trans h₂).mono fun p home hp => .inr ⟨htop, by rw [htop], ?_⟩, by omega,
      by omega⟩
    obtain ⟨hsize, hpart⟩ := hp
    rw [hsize, htop] at hpart
    exact hpart
  unfold toAnyRegister at h
  split at h
  next name line =>
    simp only [bind_ok] at h
    obtain ⟨reference, st₁, hresolve, h⟩ := h
    have h₁ := emits_resolve hresolve hs
    split at h
    next l c =>
      simp only [pure_ok] at h
      obtain ⟨rfl, rfl⟩ := h
      have hlt := (resolve_step hresolve hs).2.1 _ _ rfl
      have hlevel := hs.level_le
      exact ⟨_, h₁.mono fun p home hp => .inl ⟨name, line, rfl, hp.2, rfl, hp.1⟩, by omega,
        Nat.le_refl _⟩
    next => exact htemporary (h₁.mono fun _ _ hp => hp.1) h
  next => exact htemporary ((Emits.refl hs).mono fun _ _ _ => rfl) h

/-! ## Constants -/

theorem lowers_constant (k : Constant) :
    Lowers Good (fun r => do
      setLine line
      loadConstant r k) fun p _ r _ n n' => p.Loads n r k ∧ n' = n + 1 := by
  intro ps st st' r u hs hr h
  simp only [bind_ok] at h
  obtain ⟨_, st₁, hline, h⟩ := h
  have h₁ := emits_setLine hline hs
  have htop := h₁.top_eq
  have h₂ := emits_loadConstant h h₁.sound (by omega)
  refine ((h₁.trans h₂).cast htop).mono fun p home hp => ?_
  obtain ⟨hsize, hload, hsize'⟩ := hp
  rw [hsize] at hload hsize'
  exact ⟨hload, hsize'⟩

/-- A constant takes the place of an expression that is folded. -/
theorem lowers_folded (line : Nat) (h : Lowers Good act part) :
    Lowers Good (fun r => do
      match e.fold with
      | some k =>
        setLine line
        loadConstant r k
      | none => act r) fun p home => Folded p e (part p home) := by
  intro ps st st' r u hs hr hok
  cases hfold : e.fold with
  | some k =>
    simp only [hfold] at hok
    exact (lowers_constant k hs hr hok).mono fun p home hp => .inl ⟨k, hfold, hp⟩
  | none =>
    simp only [hfold] at hok
    exact (h hs hr hok).mono fun p home hp => .inr hp

/-! ## Names -/

/-- The key of a global in a register of its own, where one byte cannot name it. -/
theorem getGlobal_emits {name : String} {x y : Nat} {u' : Unit}
    (hload : (do emitAbx .loadConstant y (← addConstant (.str name)) : Gen Unit) st = .ok u st₁)
    (hget : emitAbc .getTable r x y st₁ = .ok u' st') (hs : Sound Good ps st) (hr : r < st.top)
    (hx : x < st.top) (hy : y < st.top) :
    Emits Good ps st st' st.top fun p _ => p.Loads st.size y (.str name) ∧
      p.HasWord (st.size + 1) .getTable r x y ∧ st'.size = st.size + 2 := by
  have h₁ := emits_loadPool hload hs hy
  have htop := h₁.top_eq
  have hregisters := h₁.sound.top_le
  have hmax := h₁.sound.registers_le
  have h₂ := emits_abc hget h₁.sound (emitOperation_step hget h₁.sound rfl (by simp) ⟨rfl, rfl⟩ rfl
    (by omega) (by omega) (by omega)) (by omega) (by omega) (by omega)
  refine ((h₁.trans h₂).cast htop).mono fun p home hp => ?_
  obtain ⟨⟨hloads, hsize⟩, hword, hsize'⟩ := hp
  rw [hsize] at hword hsize'
  exact ⟨hloads, hword, hsize'⟩

theorem lowers_global (name : String) :
    Lowers Good (globalGet name) fun p home => ReadsGlobal p home name := by
  intro ps st st' r u hs hr h
  simp only [globalGet, globalAccess, bind_ok, currentLine_ok, and_assoc, exists_and_left,
    exists_eq_left] at h
  obtain ⟨env, st₁, henv, key, st₂, hkey, h⟩ := h
  have h₁ := emits_resolve henv hs
  obtain ⟨h₂, hplace⟩ := emits_keyPlace? hkey h₁.sound
  obtain ⟨hstep, hregister, hupvalue⟩ := resolve_step henv hs
  have h₁₂ := h₁.trans h₂
  have htop₁ := h₁.top_eq
  have htop₂ := h₂.top_eq
  have hlevel := hs.level_le
  have hregisters := h₂.sound.top_le
  have hmax := h₂.sound.registers_le
  split at h
  next l c k =>
    have hl := hregister _ _ rfl
    have h₃ := emits_abc h h₂.sound (emitGetField_step h h₂.sound (by omega) (by omega)
      (hplace k rfl)) (by omega) (by omega) (by have hk := (hplace k rfl).1; omega)
    refine ((h₁₂.trans h₃).cast (htop₂.trans htop₁)).mono fun p home hp => ?_
    obtain ⟨⟨⟨hsize₁, hhome⟩, hsize₂, hconstant⟩, hword, hsize₃⟩ := hp
    rw [hsize₂, hsize₁] at hword hsize₃
    simp only [ReadsGlobal, hhome, Reference.home]
    exact .inl ⟨k, hconstant k rfl, hword, hsize₃⟩
  next l c =>
    have hl := hregister _ _ rfl
    simp only [bind_ok] at h
    obtain ⟨keyRegister, st₃, hreserve, place, st₄, hconst, _, st₅, hload, _, st₆, hread, h⟩ := h
    obtain ⟨h₃, rfl⟩ := emits_reserve hreserve h₂.sound
    have htop₃ := h₃.top_eq
    have h₆ := getGlobal_emits (bind_ok.mpr ⟨place, st₄, hconst, hload⟩) hread
      h₃.sound (r := r) (x := l) (by omega) (by omega) (by omega)
    have h₇ := emits_release h h₆.sound
    refine ((h₁₂.trans (h₃.trans (h₆.trans h₇))).cast (htop₂.trans htop₁)).mono
      fun p home hp => ?_
    obtain ⟨⟨⟨hsize₁, hhome⟩, hsize₂, -⟩, hsize₃, ⟨hloads, hword, hsize₆⟩, hsize₇⟩ := hp
    rw [hsize₃, hsize₂, hsize₁] at hloads hword hsize₆
    rw [htop₂, htop₁] at hloads hword
    simp only [ReadsGlobal, hhome, Reference.home]
    exact .inr ⟨hloads, hword, hsize₇.trans hsize₆⟩
  next v c k =>
    have hv := hupvalue _ _ rfl
    have hgrow := h₂.step.grows.upvalues_size_le
    have hlimit := upvalues_le h₂.sound
    have h₃ := emits_abc h h₂.sound (emitGetGlobal_step h h₂.sound (by omega) (by omega)
      (hplace k rfl)) (by omega) (by omega) (by have hk := (hplace k rfl).1; omega)
    refine ((h₁₂.trans h₃).cast (htop₂.trans htop₁)).mono fun p home hp => ?_
    obtain ⟨⟨⟨hsize₁, hhome⟩, hsize₂, hconstant⟩, hword, hsize₃⟩ := hp
    rw [hsize₂, hsize₁] at hword hsize₃
    simp only [ReadsGlobal, hhome, Reference.home]
    exact .inl ⟨k, hconstant k rfl, hword, hsize₃⟩
  next v c =>
    have hv := hupvalue _ _ rfl
    simp only [bind_ok] at h
    obtain ⟨x, st₃, hreserve, _, st₄, hget, place, st₅, hconst, _, st₆, hload, _, st₇, hread,
      h⟩ := h
    obtain ⟨h₃, rfl⟩ := emits_reserve hreserve h₂.sound
    have htop₃ := h₃.top_eq
    have hregisters₃ := h₃.sound.top_le
    have hmax₃ := h₃.sound.registers_le
    have hgrow := (h₂.step.trans h₃.step).grows.upvalues_size_le
    have hlimit := upvalues_le h₃.sound
    have h₄ := emits_abc hget h₃.sound
      (emitUpvalue_step hget (.inl rfl) h₃.sound (by omega) (by omega)) (by omega) (by omega)
      (by omega)
    have htop₄ := h₄.top_eq
    have h₇ := getGlobal_emits (bind_ok.mpr ⟨place, st₅, hconst, hload⟩) hread
      h₄.sound (r := r) (x := st₂.top) (by omega) (by omega) (by omega)
    have h₈ := emits_release h h₇.sound
    refine ((h₁₂.trans (h₃.trans (h₄.trans (h₇.trans h₈)))).cast (htop₂.trans htop₁)).mono
      fun p home hp => ?_
    obtain ⟨⟨⟨hsize₁, hhome⟩, hsize₂, -⟩, hsize₃, ⟨hread, hsize₄⟩, ⟨hloads, hword, hsize₇⟩,
      hsize₈⟩ := hp
    rw [hsize₄] at hloads hword hsize₇
    rw [hsize₃, hsize₂, hsize₁] at hread hloads hword hsize₇
    rw [htop₂, htop₁] at hread hloads hword
    simp only [ReadsGlobal, hhome, Reference.home]
    exact .inr ⟨hread, hloads, hword, hsize₈.trans hsize₇⟩
  next =>
    simp only [bind_ok, defect_ok, and_false, exists_false] at h

theorem lowers_name (name : String) (line : Nat) :
    Lowers Good (compileName name line) fun p home => ReadsName p home name := by
  intro ps st st' r u hs hr h
  simp only [compileName, bind_ok] at h
  obtain ⟨_, st₁, hline, reference, st₂, hresolve, h⟩ := h
  have h₁ := emits_setLine hline hs
  have h₂ := emits_resolve hresolve h₁.sound
  obtain ⟨hstep, hregister, hupvalue⟩ := resolve_step hresolve h₁.sound
  have h₁₂ := h₁.trans h₂
  have htop₁ := h₁.top_eq
  have htop₂ := h₂.top_eq
  have hlevel := h₁.sound.level_le
  have hregisters := h₂.sound.top_le
  have hmax := h₂.sound.registers_le
  split at h
  next l c =>
    have hl := hregister _ _ rfl
    split at h
    next hne =>
      have h₃ := emits_move h h₂.sound (by omega) (by omega)
      refine ((h₁₂.trans h₃).cast (htop₂.trans htop₁)).mono fun p home hp => ?_
      obtain ⟨⟨hsize₁, hsize₂, hhome⟩, hword, hsize₃⟩ := hp
      rw [hsize₂, hsize₁] at hword hsize₃
      simp only [ReadsName, hhome, Reference.home, if_neg hne]
      exact ⟨hword, hsize₃⟩
    next heq =>
      simp only [pure_ok] at h
      obtain ⟨-, rfl⟩ := h
      refine (h₁₂.cast (htop₁)).mono fun p home hp => ?_
      obtain ⟨hsize₁, hsize₂, hhome⟩ := hp
      simp only [ReadsName, hhome, Reference.home, if_pos (Decidable.not_not.mp heq)]
      exact hsize₂.trans hsize₁
  next v c =>
    have hv := hupvalue _ _ rfl
    have hlimit := upvalues_le h₂.sound
    have h₃ := emits_abc h h₂.sound (emitUpvalue_step h (.inl rfl) h₂.sound (by omega) hv)
      (by omega) (by omega) (by omega)
    refine ((h₁₂.trans h₃).cast (htop₂.trans htop₁)).mono fun p home hp => ?_
    obtain ⟨⟨hsize₁, hsize₂, hhome⟩, hword, hsize₃⟩ := hp
    rw [hsize₂, hsize₁] at hword hsize₃
    simp only [ReadsName, hhome, Reference.home]
    exact ⟨hword, hsize₃⟩
  next =>
    have h₃ := lowers_global name h₂.sound (by omega) h
    refine ((h₁₂.trans h₃).cast (htop₂.trans htop₁)).mono fun p home hp => ?_
    obtain ⟨⟨hsize₁, hsize₂, hhome⟩, hglobal⟩ := hp
    rw [hsize₂, hsize₁, htop₂, htop₁] at hglobal
    simp only [ReadsName, hhome, Reference.home]
    exact hglobal

/-! ## Operators -/

theorem lowers_unary (op : UnaryOp) (line : Nat) (hact : Lowers Good act part) :
    Lowers Good (fun r => do
      let saved ← free
      let operand ← toAnyRegister e act
      setLine line
      emitAbc (unaryOpcode op) r operand 0
      release saved) fun p home => OfUnary p home op e (part p home) := by
  intro ps st st' r u hs hr h
  simp only [bind_ok, free_ok, and_assoc, exists_and_left, exists_eq_left] at h
  obtain ⟨operand, st₁, hvalue, _, st₂, hline, _, st₃, hop, h⟩ := h
  obtain ⟨t, h₁, hlt, hle⟩ := toAnyRegister_emits hvalue hs hact
  have h₂ := emits_setLine hline h₁.sound
  have htop₁ := h₁.top_eq
  have htop₂ := h₂.top_eq
  have hregisters := h₂.sound.top_le
  have hmax := h₂.sound.registers_le
  have h₃ := emits_abc hop h₂.sound (emitUnary_step hop h₂.sound (by omega) (by omega)) (by omega)
    (by omega) (by omega)
  have h₄ := emits_release h h₃.sound
  refine (h₁.trans (h₂.trans (h₃.trans h₄))).mono fun p home hp => ?_
  obtain ⟨hoperand, hsize₂, ⟨hword, hsize₃⟩, hsize₄⟩ := hp
  rw [hsize₂] at hword hsize₃
  exact ⟨operand, t, st₁.size, hoperand, hword, hsize₄.trans hsize₃⟩

theorem emitBinary_emits {op : BinaryOp} {x y : Nat} (h : emitBinary op r x y st = .ok u st')
    (hs : Sound Good ps st) (hr : r < st.top) (hx : x < st.top) (hy : y < st.top) :
    Emits Good ps st st' st.top fun p _ => Operates p op r x y st.size st'.size := by
  have hstep := emitBinary_step h hs hr hx hy
  have hregisters := hs.top_le
  have hmax := hs.registers_le
  cases op with
  | and | or | concat => exact absurd h (by simp [emitBinary, defect_ok])
  | ne =>
    simp only [emitBinary, bind_ok] at h
    obtain ⟨_, st₁, hequal, h⟩ := h
    have h₁ := emits_abc hequal hs
      (emitOperation_step hequal hs rfl (by simp) ⟨rfl, rfl⟩ rfl hr hx hy) (by omega) (by omega)
      (by omega)
    have htop := h₁.top_eq
    have hnot : emitAbc (unaryOpcode .not) r r 0 st₁ = .ok u st' := h
    have h₂ := emits_abc h h₁.sound (emitUnary_step hnot h₁.sound (by omega) (by omega)) (by omega)
      (by omega) (by omega)
    refine ((h₁.trans h₂).cast htop).mono fun p home hp => ?_
    obtain ⟨⟨hword, hsize⟩, hword', hsize'⟩ := hp
    rw [hsize] at hword' hsize'
    exact ⟨hword, hword', hsize'⟩
  | _ => exact emits_abc h hs hstep (by omega) (by omega) (by omega)

theorem lowers_operator (op : BinaryOp) (line : Nat) (ha : Lowers Good first part)
    (hb : Lowers Good second part') :
    Lowers Good (fun r => do
      let saved ← free
      let left ← toAnyRegister a first
      let right ← toAnyRegister b second
      setLine line
      emitBinary op r left right
      release saved) fun p home => OfOperator p home op a b (part p home) (part' p home) := by
  intro ps st st' r u hs hr h
  simp only [bind_ok, free_ok, and_assoc, exists_and_left, exists_eq_left] at h
  obtain ⟨left, st₁, hleft, right, st₂, hright, _, st₃, hline, _, st₄, hop, h⟩ := h
  obtain ⟨t₁, h₁, hlt₁, hle₁⟩ := toAnyRegister_emits hleft hs ha
  obtain ⟨t₂, h₂, hlt₂, hle₂⟩ := toAnyRegister_emits hright h₁.sound hb
  have h₃ := emits_setLine hline h₂.sound
  have htop₁ := h₁.top_eq
  have htop₂ := h₂.top_eq
  have htop₃ := h₃.top_eq
  have h₄ := emitBinary_emits hop h₃.sound (by omega) (by omega) (by omega)
  have h₅ := emits_release h h₄.sound
  refine (h₁.trans (h₂.trans (h₃.trans (h₄.trans h₅)))).mono fun p home hp => ?_
  obtain ⟨hx, hy, hsize₃, hoperates, hsize₅⟩ := hp
  rw [htop₁] at hy
  rw [hsize₃] at hoperates
  exact ⟨left, right, t₁, t₂, st₁.size, st₂.size, hx, hy, hsize₅ ▸ hoperates⟩

/-- The jump over the second operand is filled in when its end is known. -/
theorem lowers_shortCircuit (op : BinaryOp) (line : Nat) (ha : Lowers Good first part)
    (hb : Lowers Good second part') :
    Lowers Good (fun r => do
      first r
      setLine line
      emitAbc .test r (if op = .or then 1 else 0) 0
      let skip ← emitJump
      second r
      patchJumpHere skip) fun p home => OfShortCircuit p op (part p home) (part' p home) := by
  intro ps st st' r u hs hr h
  have hvalue : (if op = .or then 1 else 0) < 256 := by split <;> omega
  refine ⟨shortCircuit_step hvalue h hs ha.evaluationSound hb.evaluationSound hr,
    fun p home hf => ?_⟩
  simp only [bind_ok] at h
  obtain ⟨_, st₁, hleft, _, st₂, hline, _, st₃, htest, skip, st₄, hjump, _, st₅, hright, h⟩ := h
  have hpatch := patchJumpHere_ok h
  have h₁ := ha hs hr hleft
  have h₂ := emits_setLine hline h₁.sound
  have htop₁ := h₁.top_eq
  have htop₂ := h₂.top_eq
  have hregisters := h₂.sound.top_le
  have hmax := h₂.sound.registers_le
  obtain ⟨hsound₄, hkeeps₄, htop₄, hskip, hop⟩ :=
    emitTest_step htest hjump h₂.sound (by omega) hvalue
  have hstep₄ : Step Good ps st₂ st₄ st.top := ⟨hsound₄, hkeeps₄, by omega⟩
  have h₅ := hb hsound₄ (by omega) hright
  have hsize₂ : st₂.size = st₁.size := setLine_size hline
  obtain ⟨hskip, hsize₄, i, hi, hword⟩ := test_words htest hjump h₂.sound (by omega) hvalue
  have hgrow₁ : st.size ≤ st₁.size := h₁.step.grows.size
  have hgrow₅ : st₄.size ≤ st₅.size := h₅.step.grows.size
  have hsize : st'.size = st₅.size := patchJump_size hpatch h₅.sound
  have hfirst := h₁.code p home
    (hf.unpatched h₅.sound hpatch h₁.sound ((h₂.step.trans hstep₄).trans h₅.step)
      (Nat.le_refl _) (.inr (by omega)))
  have hsecond := h₅.code p home
    (hf.unpatched h₅.sound hpatch h₅.sound (.refl h₅.sound) (by omega) (.inl (by omega)))
  have htestWord := hf.word_unpatched h₅.sound hpatch (m := st₂.size) (by omega) (by omega)
    ((h₅.step.keeps.current.code _ (show st₂.size < st₄.size by omega)).trans hi)
  refine ⟨st₁.size, hfirst, ?_, ?_, ?_⟩
  · rw [← hsize₂]
    exact ⟨i, htestWord, hword⟩
  · rw [← hsize₂, ← hskip, hsize]
    exact hf.jump h₅.sound hpatch (h₅.step.grows.opcodeAt? hop) (by omega)
  · rw [hsize₄, hsize₂, show st₄.top = st.top by omega, ← hsize] at hsecond
    exact hsecond

/-! ## Concatenation -/

/-- The operands of a chain go to registers that are in use. -/
def LowersChain (Good : Prototype → Prop) (e : Expr) (act : Nat → Gen Unit)
    (part : Prototype → (String → Home) → Part) : Prop :=
  ∀ ⦃ps : List Nat⦄ ⦃st st' : State⦄ ⦃r : Nat⦄ ⦃u : Unit⦄, Sound Good ps st →
    r + chainLength e ≤ st.top → act r st = .ok u st' →
    Emits Good ps st st' st.top fun p home => part p home r st.top st.size st'.size

theorem LowersTo.chain {act : Destination → Gen Unit} (h : LowersTo Good e act) :
    LowersChain Good e (fun r => act (.part r)) fun p home r => Codes p home e (.part r) :=
  fun _ _ _ r _ hs hr hok => h hs (d := .part r) hr hok

theorem lowers_chain {rest : Nat → Gen Unit} (line : Nat) (ha : Lowers Good first part)
    (hb : LowersChain Good b rest part') :
    Lowers Good (fun r => do
      let count := chainLength b + 1
      let base ← reserve count line
      first base
      rest (base + 1)
      setLine line
      emitAbc .concat r base count
      release base) fun p home =>
        OfChain p (chainLength b + 1) (part p home) (part' p home) := by
  intro ps st st' r u hs hr h
  simp only [bind_ok] at h
  obtain ⟨base, st₁, hreserve, _, st₂, hleft, _, st₃, hright, _, st₄, hline, _, st₅, hop, h⟩ := h
  obtain ⟨h₁, rfl⟩ := emits_reserve hreserve hs
  have htop₁ := h₁.top_eq
  have h₂ := ha h₁.sound (by omega) hleft
  have htop₂ := h₂.top_eq
  have h₃ := hb h₂.sound (by omega) hright
  have htop₃ := h₃.top_eq
  have h₄ := emits_setLine hline h₃.sound
  have htop₄ := h₄.top_eq
  have hregisters := h₄.sound.top_le
  have hmax := h₄.sound.registers_le
  have hstep₅ := emitRegisters_step hop h₄.sound rfl (by simp) ⟨rfl, rfl⟩ (by omega) (by
    simp only [Opcode.runs, List.mem_cons, List.not_mem_nil, or_false]
    rintro run (rfl | rfl) <;> omega)
  have h₅ := emits_abc hop h₄.sound hstep₅ (by omega) (by omega) (by omega)
  have h₆ := emits_release h h₅.sound
  refine (h₁.trans (h₂.trans (h₃.trans (h₄.trans (h₅.trans h₆))))).mono fun p home hp => ?_
  obtain ⟨hsize₁, hfirst, hrest, hsize₄, ⟨hword, hsize₅⟩, hsize₆⟩ := hp
  rw [hsize₁, htop₁] at hfirst
  rw [htop₂, htop₁] at hrest
  rw [hsize₄] at hword hsize₅
  exact ⟨st₂.size, st₃.size, hfirst, hrest, hword, hsize₆.trans hsize₅⟩

/-! ## Fields -/

theorem lowers_index (line : Nat) (he : Lowers Good first part) (hk : Lowers Good second part') :
    Lowers Good (fun r => do
      let saved ← free
      let table ← toAnyRegister e first
      match ← fieldPlace? k with
      | some p =>
        setLine line
        emitAbc .getField r table p
      | none =>
        let key ← toAnyRegister k second
        setLine line
        emitAbc .getTable r table key
      release saved) fun p home => OfIndex p home e k (part p home) (part' p home) := by
  intro ps st st' r u hs hr h
  simp only [bind_ok, free_ok, and_assoc, exists_and_left, exists_eq_left] at h
  obtain ⟨table, st₁, htable, place, st₂, hplace, h⟩ := h
  obtain ⟨t, h₁, hlt, hle⟩ := toAnyRegister_emits htable hs he
  obtain ⟨h₂, hbound⟩ := emits_fieldPlace? hplace h₁.sound
  have htop₁ := h₁.top_eq
  have htop₂ := h₂.top_eq
  split at h
  next c =>
    simp only [bind_ok] at h
    obtain ⟨_, st₃, hline, _, st₄, hget, h⟩ := h
    have h₃ := emits_setLine hline h₂.sound
    have htop₃ := h₃.top_eq
    have hc := hbound c rfl
    have hgrow := h₃.step.grows.constants_size_le
    have hregisters := h₃.sound.top_le
    have hmax := h₃.sound.registers_le
    have h₄ := emits_abc hget h₃.sound
      (emitGetField_step hget h₃.sound (by omega) (by omega) (by omega)) (by omega) (by omega)
      (by omega)
    have h₅ := emits_release h h₄.sound
    refine (h₁.trans (h₂.trans (h₃.trans (h₄.trans h₅)))).mono fun p home hp => ?_
    obtain ⟨hobject, ⟨hsize₂, hkey⟩, hsize₃, ⟨hword, hsize₄⟩, hsize₅⟩ := hp
    obtain ⟨name, nameLine, rfl, hconstant⟩ := hkey c rfl
    rw [hsize₃, hsize₂] at hword hsize₄
    exact ⟨table, t, st₁.size, hobject,
      .inl ⟨name, nameLine, c, rfl, hconstant, hword, hsize₅.trans hsize₄⟩⟩
  next =>
    simp only [bind_ok] at h
    obtain ⟨key, st₃, hkey, _, st₄, hline, _, st₅, hget, h⟩ := h
    obtain ⟨t', h₃, hlt', hle'⟩ := toAnyRegister_emits hkey h₂.sound hk
    have h₄ := emits_setLine hline h₃.sound
    have htop₃ := h₃.top_eq
    have htop₄ := h₄.top_eq
    have hregisters := h₄.sound.top_le
    have hmax := h₄.sound.registers_le
    have h₅ := emits_abc hget h₄.sound (emitOperation_step hget h₄.sound rfl (by simp) ⟨rfl, rfl⟩
      rfl (by omega) (by omega) (by omega)) (by omega) (by omega) (by omega)
    have h₆ := emits_release h h₅.sound
    refine (h₁.trans (h₂.trans (h₃.trans (h₄.trans (h₅.trans h₆))))).mono fun p home hp => ?_
    obtain ⟨hobject, ⟨hsize₂, -⟩, hkey, hsize₄, ⟨hword, hsize₅⟩, hsize₆⟩ := hp
    rw [hsize₂, htop₂, htop₁] at hkey
    rw [hsize₄] at hword hsize₅
    exact ⟨table, t, st₁.size, hobject, .inr ⟨key, t', st₃.size, hkey, hword,
      hsize₆.trans hsize₅⟩⟩

end Lowering
end LuaMachine
