import LuaMachine.Proofs.Generator.Blocks
import LuaMachine.Proofs.Generator.Expressions
import LuaMachine.Proofs.Scoping.Sites
/-! # Statements

One lemma for each form of statement: if compiling its parts keeps a sound state sound, so does
compiling the whole, and no temporary registers are in use before or after it.

* `BodySound`, `Declares`, `TargetSound`, `TargetsSound`: the statements of the lemmas.
* `declares_assign`, `declares_locals` and the like: the cases of the induction over statements.
-/
set_option autoImplicit false

namespace LuaMachine
namespace Generator

/-! ## What is assumed of the parts -/

/-- The action keeps a sound state sound; only variables are in use before and after it. -/
def BodySound (Good : Prototype → Prop) (body : Gen Unit) : Prop :=
  ∀ (ps : List Nat) (st st' : State) (u : Unit), Sound Good ps st → st.top = st.level →
    body st = .ok u st' → ∃ n, Moves Good ps st st' n n

/-- The same, for an action that declares so many variables. -/
def Declares (Good : Prototype → Prop) (count : Nat) (body : Gen Unit) : Prop :=
  ∀ (ps : List Nat) (st st' : State) (u : Unit), Sound Good ps st → st.top = st.level →
    body st = .ok u st' → Moves Good ps st st' (st.level + count) (st.level + count)

def TargetSound (Good : Prototype → Prop) (e : Expr) : Prop :=
  ∀ (several : Bool) (ps : List Nat) (st st' : State) (x : Target), Sound Good ps st →
    target e several st = .ok x st' →
    ∃ t, Step Good ps st st' t ∧ st.top ≤ t ∧ TargetWithin st'.current.proto t x

def TargetsSound (Good : Prototype → Prop) (es : List Expr) : Prop :=
  ∀ (several : Bool) (ps : List Nat) (st st' : State) (xs : List Target), Sound Good ps st →
    targets es several st = .ok xs st' →
    ∃ t, Step Good ps st st' t ∧ st.top ≤ t ∧ xs.length = es.length ∧
      ∀ x ∈ xs, TargetWithin st'.current.proto t x

variable {Good : Prototype → Prop} {ps : List Nat} {st st' st₀ st₁ : State} {u : Unit}
  {line r n t : Nat} {e k : Expr} {b : ScopeBlock} {isLoop : Bool} {body : Gen Unit}

theorem Declares.sound (h : Declares Good n body) : BodySound Good body :=
  fun _ _ _ _ hs htop hok => ⟨_, h _ _ _ _ hs htop hok⟩

/-! ## Expressions as statements -/

theorem expr_step (h : statement (.expr e line) st = .ok u st') (hs : Sound Good ps st)
    (he : ExprSound Good e) : Step Good ps st st' st.top := by
  rw [statement] at h
  simp only [bind_ok, free_ok, and_assoc, exists_and_left, exists_eq_left] at h
  obtain ⟨_, st₁, hline, _, st₂, hvalue, h⟩ := h
  have hstep₁ := setLine_step hline hs
  have hstep₂ := hstep₁.trans (he _ _ _ (.values (some 0)) _ hstep₁.sound trivial hvalue)
  have htop₁ := hstep₁.top_eq
  exact (release_saved h ⟨_, hstep₂⟩).cast htop₁

theorem declares_expr (line : Nat) (he : ExprSound Good e) :
    Declares Good 0 (statement (.expr e line)) := by
  intro ps st st' u hs htop h
  exact (expr_step h hs he).moves.cast htop rfl

theorem targetSound_name (n : String) (line : Nat) : TargetSound Good (.name n line) := by
  intro several ps st st' x hs h
  rw [target] at h
  obtain ⟨hstep, hx⟩ := nameTarget_step h hs
  exact ⟨_, hstep, Nat.le_refl _, hx⟩

theorem targetSound_index (line : Nat) (he : ExprSound Good e) (hk : ExprSound Good k) :
    TargetSound Good (.index e k line) := by
  intro several ps st st' x hs h
  rw [target] at h
  simp only [bind_ok] at h
  obtain ⟨table, st₁, htable, place, st₂, hplace, h⟩ := h
  obtain ⟨t, hstep₁, hlt, hle⟩ := toOperand_step htable hs he.evaluation
  obtain ⟨hstep₂', hbound⟩ := fieldPlace?_step hplace hstep₁.sound
  have hstep₂ := hstep₁.trans hstep₂'
  have htop₁ := hstep₁.top_eq
  have htop₂ := hstep₂.top_eq
  split at h
  next p =>
    simp only [pure_ok] at h
    obtain ⟨rfl, rfl⟩ := h
    have hp := hbound p rfl
    exact ⟨_, hstep₂, by omega, by omega, hp.1, hp.2⟩
  next =>
    simp only [bind_ok, pure_ok] at h
    obtain ⟨key, st₃, hkey, rfl, rfl⟩ := h
    obtain ⟨t', hstep₃, hlt', hle'⟩ := toOperand_step hkey hstep₂.sound hk.evaluation
    exact ⟨_, hstep₂.trans hstep₃, by omega, by omega, hlt'⟩

theorem targetSound_other (h₁ : ∀ n line, e ≠ .name n line) (h₂ : ∀ a k line, e ≠ .index a k line) :
    TargetSound Good e := by
  intro several ps st st' x hs h
  unfold target at h
  split at h
  · exact absurd rfl (h₁ _ _)
  · exact absurd rfl (h₂ _ _ _)
  · simp only [defect_ok] at h

theorem targetsSound_nil : TargetsSound Good [] := by
  intro several ps st st' xs hs h
  rw [targets, pure_ok] at h
  obtain ⟨rfl, rfl⟩ := h
  exact ⟨_, .refl hs, Nat.le_refl _, rfl, by simp⟩

theorem targetsSound_cons {es : List Expr} (he : TargetSound Good e) (hes : TargetsSound Good es) :
    TargetsSound Good (e :: es) := by
  intro several ps st st' xs hs h
  rw [targets] at h
  simp only [bind_ok, pure_ok] at h
  obtain ⟨x, st₁, hx, rest, st₂, hrest, rfl, rfl⟩ := h
  obtain ⟨t, hstep₁, hle, hwithin⟩ := he _ _ _ _ _ hs hx
  obtain ⟨t', hstep₂, hle', hlength, hall⟩ := hes _ _ _ _ _ hstep₁.sound hrest
  have htop₁ := hstep₁.top_eq
  refine ⟨t', hstep₁.trans hstep₂, by omega, by simp [hlength], ?_⟩
  intro y hy
  rcases List.mem_cons.mp hy with rfl | hy
  · exact hwithin.mono hstep₂.grows (by omega)
  · exact hall y hy

/-- An assignment leaves the registers in use as they were. -/
theorem assign_step {left right : List Expr} (h : statement (.assign left right line) st = .ok u st')
    (hs : Sound Good ps st) (hleft : TargetsSound Good left)
    (hright : ItemsSound Good right (items right)) : Step Good ps st st' st.top := by
  rw [statement] at h
  simp only [bind_ok, free_ok, and_assoc, exists_and_left, exists_eq_left] at h
  obtain ⟨_, st₁, hline, prepared, st₂, htargets, count, st₃, hvalues, _, st₄, hline', _, st₅,
    hstore, h⟩ := h
  have hstep₁ := setLine_step hline hs
  have htop₁ := hstep₁.top_eq
  obtain ⟨t, hstep₂', hle, hlength, hwithin⟩ := hleft _ _ _ _ _ hstep₁.sound htargets
  have hstep₂ := hstep₁.trans hstep₂'
  have htop₂ := hstep₂.top_eq
  obtain ⟨t', hstep₃', -, -, hwanted⟩ := adjusted_step hvalues hstep₂.sound hright
  have hstep₃ := hstep₂.trans hstep₃'
  have htop₃ := hstep₃.top_eq
  have hwanted' := hwanted _ rfl
  have hline'' := setLine_step hline' hstep₃.sound
  have hstep₄ := hstep₃.trans hline''
  have htop₄ := hstep₄.top_eq
  have hstep₅ := hstep₄.trans (storeAll_step hstore hstep₄.sound
    (fun x hx => (hwithin x hx).mono (hstep₃'.trans hline'').grows (by omega)) (by omega))
  exact (release_saved h ⟨_, hstep₅⟩).cast htop₁

theorem declares_assign {left right : List Expr} (line : Nat) (hleft : TargetsSound Good left)
    (hright : ItemsSound Good right (items right)) :
    Declares Good 0 (statement (.assign left right line)) := by
  intro ps st st' u hs htop h
  exact (assign_step h hs hleft hright).moves.cast htop rfl

theorem declares_locals {bs : List Binder} {values : List Expr} (line : Nat)
    (hvalues : ItemsSound Good values (items values)) :
    Declares Good bs.length (statement (.locals bs values line)) := by
  intro ps st st' u hs htop h
  rw [statement] at h
  simp only [bind_ok] at h
  obtain ⟨_, st₁, hline, count, st₂, hlist, h⟩ := h
  have hstep₁ := setLine_step hline hs
  obtain ⟨t, hstep₂', -, -, hwanted⟩ := adjusted_step hlist hstep₁.sound hvalues
  have hstep₂ := hstep₁.trans hstep₂'
  have hmove := hstep₂.moves.trans (addBinders_moves h hstep₂.sound)
  have htop₁ := hstep₁.top_eq
  have htop₂ := hstep₂.top_eq
  have hlevel₂ := hstep₂.level
  have hwanted' := hwanted _ rfl
  exact hmove.cast (by omega) (by omega)

theorem declares_localFunction {binder : Binder} {f : Function} (line : Nat)
    (hf : FunctionSound Good f) : Declares Good 1 (statement (.localFunction binder f line)) := by
  intro ps st st' u hs htop h
  rw [statement] at h
  rw [bind_ok] at h
  obtain ⟨_, st₁, hline, h⟩ := h
  rw [bind_ok] at h
  obtain ⟨r, st₂, hreserve, h⟩ := h
  rw [bind_ok] at h
  obtain ⟨_, st₃, hbinder, h⟩ := h
  have hstep₁ := setLine_step hline hs
  have htop₁ := hstep₁.top_eq
  obtain ⟨hstep₂', rfl⟩ := reserve_step hreserve hstep₁.sound
  have hstep₂ := hstep₁.trans hstep₂'
  have htop₂ := hstep₂.top_eq
  have hlevel₂ := hstep₂.level
  have hmove₃ := hstep₂.moves.trans (addBinder_moves hbinder hstep₂.sound)
  have htop₃ := hmove₃.top_eq
  have hlevel₃ := hmove₃.level_eq
  have hstep₄ := closureOf_step h hmove₃.sound hf (by omega)
  exact (hmove₃.trans hstep₄.moves).cast (by omega) (by omega)

theorem function_step {left : Expr} {f : Function}
    (h : statement (.function left f line) st = .ok u st') (hs : Sound Good ps st)
    (hleft : TargetSound Good left) (hf : FunctionSound Good f) :
    Step Good ps st st' st.top := by
  rw [statement] at h
  simp only [bind_ok, free_ok, and_assoc, exists_and_left, exists_eq_left] at h
  obtain ⟨_, st₁, hline, x, st₂, htarget, value, st₃, hreserve, place, st₄, hfunction, _, st₅,
    hline', _, st₆, hclosure, _, st₇, hstore, h⟩ := h
  have hstep₁ := setLine_step hline hs
  have htop₁ := hstep₁.top_eq
  obtain ⟨t, hstep₂', hle, hx⟩ := hleft _ _ _ _ _ hstep₁.sound htarget
  have hstep₂ := hstep₁.trans hstep₂'
  have htop₂ := hstep₂.top_eq
  obtain ⟨hstep₃', rfl⟩ := reserve_step hreserve hstep₂.sound
  have hstep₃ := hstep₂.trans hstep₃'
  have htop₃ := hstep₃.top_eq
  have hclosure' := closureOf_step (bind_ok.mpr ⟨place, st₄, hfunction,
    bind_ok.mpr ⟨(), st₅, hline', hclosure⟩⟩) hstep₃.sound hf (by omega)
  have hstep₆ := hstep₃.trans hclosure'
  have htop₆ := hstep₆.top_eq
  have hstep₇ := hstep₆.trans (store_step hstore hstep₆.sound
    (hx.mono (hstep₃'.trans hclosure').grows (by omega)) (by omega))
  exact (release_saved h ⟨_, hstep₇⟩).cast htop₁

theorem declares_function {left : Expr} {f : Function} (line : Nat) (hleft : TargetSound Good left)
    (hf : FunctionSound Good f) : Declares Good 0 (statement (.function left f line)) := by
  intro ps st st' u hs htop h
  exact (function_step h hs hleft hf).moves.cast htop rfl

/-! ## Returning -/

theorem emitReturn_moves {count : Nat} (h : emitAbc .ret r count 0 st = .ok u st')
    (hs : Sound Good ps st) (hr : r < 256)
    (hcount : count - 1 = 0 ∨ r + (count - 1) ≤ st.current.proto.registers) :
    Moves Good ps st st' st.top st.level := by
  have hmax := hs.registers_le
  refine emitStatement_moves h hs (.inr (.inl rfl)) hr (by omega) (by omega) ?_
  simp only [Opcode.runs, List.mem_singleton]
  rintro run rfl
  exact hcount

theorem returnedVariable_step {values : List Expr} {found : Option Nat}
    (h : returnedVariable values st = .ok found st') (hs : Sound Good ps st) :
    Step Good ps st st' st.top ∧ ∀ r, found = some r → r < st.level := by
  unfold returnedVariable at h
  split at h
  next n line =>
    simp only [bind_ok] at h
    obtain ⟨reference, st₁, hresolve, h⟩ := h
    obtain ⟨hstep, hregister, -⟩ := resolve_step hresolve hs
    split at h
    next r c =>
      simp only [pure_ok] at h
      obtain ⟨rfl, rfl⟩ := h
      refine ⟨hstep, ?_⟩
      rintro _ ⟨⟩
      exact hregister _ _ rfl
    next =>
      simp only [pure_ok] at h
      obtain ⟨rfl, rfl⟩ := h
      exact ⟨hstep, by simp⟩
  next =>
    simp only [pure_ok] at h
    obtain ⟨rfl, rfl⟩ := h
    exact ⟨.refl hs, by simp⟩

theorem declares_ret {values : List Expr} (line : Nat)
    (hvalues : ItemsSound Good values (items values)) :
    Declares Good 0 (statement (.ret values line)) := by
  intro ps st st' u hs htop h
  rw [statement] at h
  simp only [bind_ok] at h
  obtain ⟨_, st₁, hline, found, st₂, hfound, h⟩ := h
  have hstep₁ := setLine_step hline hs
  obtain ⟨hstep₂', hlt⟩ := returnedVariable_step hfound hstep₁.sound
  have hstep₂ := hstep₁.trans hstep₂'
  have htop₁ := hstep₁.top_eq
  have htop₂ := hstep₂.top_eq
  have hlevel₁ := hstep₁.level
  have hlevel₂ := hstep₂.level
  have hregisters := hstep₂.sound.top_le
  have hmax := hstep₂.sound.registers_le
  rcases found with _ | r
  · cases hempty : values.isEmpty with
    | true =>
      simp only [hempty] at h
      exact (hstep₂.moves.trans (emitReturn_moves h hstep₂.sound (by omega)
        (.inl rfl))).cast (by omega) (by omega)
    | false =>
      simp only [hempty, bind_ok, free_ok, and_assoc, exists_and_left, exists_eq_left] at h
      obtain ⟨count, st₃, hlist, _, st₄, hline', _, st₅, hreturn, h⟩ := h
      obtain ⟨t, hstep₃', hle, hcount, -⟩ := adjusted_step hlist hstep₂.sound hvalues
      have hstep₃ := hstep₂.trans hstep₃'
      have hstep₄ := hstep₃.trans (setLine_step hline' hstep₃.sound)
      have htop₃ := hstep₃.top_eq
      have htop₄ := hstep₄.top_eq
      have hregisters' := hstep₄.sound.top_le
      have hmove := hstep₄.moves.trans (emitReturn_moves hreturn hstep₄.sound (by omega) (by
        rcases count with _ | c
        · exact .inl rfl
        · have hc := hcount c rfl
          refine .inr ?_
          change st₂.top + (c + 1 - 1) ≤ _
          omega))
      have hlevel := hmove.level_eq
      have hrelease := (release_step h hmove.sound).1
      exact (hmove.trans hrelease.moves).cast (by omega) (hlevel.trans hstep₄.level)
  · have hr := hlt r rfl
    exact (hstep₂.moves.trans (emitReturn_moves h hstep₂.sound (by omega)
      (.inr (by omega)))).cast (by omega) (by omega)

end Generator
end LuaMachine
