import LuaMachine.Proofs.Generator.Values
/-! # Operators, names and conditions

Reading and writing variables, upvalues and globals, the operators, and jumps on a condition.

* `globalAccess_step`: a global is a field of `_ENV`, wherever that lives.
* `TargetWithin`, `storeAll_step`: what an assignment stores to.
* `jumpIfFalse_step`: the jump over what a condition guards.
-/
set_option autoImplicit false

namespace LuaMachine
namespace Generator

variable {Good : Prototype → Prop} {ps : List Nat} {st st' st₁ : State} {e : Evaluation} {u : Unit}
  {line r : Nat}

/-! ## Operators -/

theorem emitBinary_step {op : BinaryOp} {a b c : Nat} (h : emitBinary op a b c st = .ok u st')
    (hs : Sound Good ps st) (ha : a < st.top) (hb : b < st.top) (hc : c < st.top) :
    Step Good ps st st' st.top := by
  cases op with
  | ne =>
    simp only [emitBinary, bind_ok] at h
    obtain ⟨_, st₁, hequal, h⟩ := h
    have hstep := emitOperation_step hequal hs rfl (by simp) ⟨rfl, rfl⟩ rfl ha hb hc
    have htop := hstep.top_eq
    have hregisters := hstep.sound.top_le
    have hmax := hstep.sound.registers_le
    refine (hstep.trans (emitRegisters_step h hstep.sound rfl (by simp) ⟨rfl, rfl⟩ (by omega)
      ?_)).cast htop
    simp only [Opcode.runs, List.mem_cons, List.not_mem_nil, or_false]
    rintro run (rfl | rfl) <;> omega
  | and | or | concat => exact absurd h (by simp [emitBinary, defect_ok])
  | gt | ge => exact emitOperation_step h hs rfl (by simp) ⟨rfl, rfl⟩ rfl ha hc hb
  | _ => exact emitOperation_step h hs rfl (by simp) ⟨rfl, rfl⟩ rfl ha hb hc

theorem emitUnary_step {op : UnaryOp} {a b : Nat}
    (h : emitAbc (unaryOpcode op) a b 0 st = .ok u st') (hs : Sound Good ps st) (ha : a < st.top)
    (hb : b < st.top) : Step Good ps st st' st.top := by
  have htop := hs.top_le
  have hmax := hs.registers_le
  have hruns : (unaryOpcode op).runs a b 0 = [(a, 1), (b, 1)] := by cases op <;> rfl
  have hnone : (unaryOpcode op).constant? b 0 0 = none ∧ (unaryOpcode op).upvalue? a b = none := by
    cases op <;> exact ⟨rfl, rfl⟩
  have hother : unaryOpcode op ≠ .loadConstant := by cases op <;> simp [unaryOpcode]
  refine emitRegisters_step h hs (by cases op <;> rfl) hother hnone (by omega) ?_
  rw [hruns]
  simp only [List.mem_cons, List.not_mem_nil, or_false]
  rintro run (rfl | rfl) <;> omega

/-! ## Fields and upvalues -/

section Access

variable {a b k : Nat}

theorem emitGetField_step (h : emitAbc .getField a b k st = .ok u st') (hs : Sound Good ps st)
    (ha : a < st.top) (hb : b < st.top)
    (hk : k ≤ 255 ∧ k < st.current.proto.chunk.constants.size) : Step Good ps st st' st.top := by
  have htop := hs.top_le
  have hmax := hs.registers_le
  refine emitAbc_step h hs rfl (by simp) (by omega) (by omega) (by omega)
    ⟨?_, ?_, by simp [Opcode.upvalue?]⟩
  · simp only [Opcode.runs, List.mem_cons, List.not_mem_nil, or_false]
    rintro run (rfl | rfl) <;> exact .inr (by omega)
  · rintro k' heq
    cases heq
    exact hk.2

theorem emitSetField_step {v : Nat} (h : emitAbc .setField a k v st = .ok u st')
    (hs : Sound Good ps st) (ha : a < st.top) (hv : v < st.top)
    (hk : k ≤ 255 ∧ k < st.current.proto.chunk.constants.size) : Step Good ps st st' st.top := by
  have htop := hs.top_le
  have hmax := hs.registers_le
  refine emitAbc_step h hs rfl (by simp) (by omega) (by omega) (by omega)
    ⟨?_, ?_, by simp [Opcode.upvalue?]⟩
  · simp only [Opcode.runs, List.mem_cons, List.not_mem_nil, or_false]
    rintro run (rfl | rfl) <;> exact .inr (by omega)
  · rintro k' heq
    cases heq
    exact hk.2

theorem upvalues_le (hs : Sound Good ps st) : st.current.proto.upvalues.size ≤ 255 := by
  have hn := hs.nested
  rw [State.scopes_eq hs.exists_scope] at hn
  cases hn with
  | cons _ limit _ _ => exact limit

/-- Reading an upvalue, or storing to it. -/
theorem emitUpvalue_step {op : Opcode} (h : emitAbc op a b 0 st = .ok u st')
    (hop : op = .getUpvalue ∨ op = .setUpvalue) (hs : Sound Good ps st) (ha : a < st.top)
    (hb : b < st.current.proto.upvalues.size) : Step Good ps st st' st.top := by
  have htop := hs.top_le
  have hmax := hs.registers_le
  have hlimit := upvalues_le hs
  have hruns : op.runs a b 0 = [(a, 1)] := by rcases hop with rfl | rfl <;> rfl
  have hup : op.upvalue? a b = some b := by rcases hop with rfl | rfl <;> rfl
  have hconst : op.constant? b 0 0 = none := by rcases hop with rfl | rfl <;> rfl
  refine emitAbc_step h hs (by rcases hop with rfl | rfl <;> rfl)
    (by rcases hop with rfl | rfl <;> simp) (by omega) (by omega) (by omega) ⟨?_, ?_, ?_⟩
  · rw [hruns]
    simp only [List.mem_singleton]
    rintro run rfl
    exact .inr (by omega)
  · simp [hconst]
  · rw [hup]
    rintro _ ⟨⟩
    exact hb

theorem emitGetGlobal_step (h : emitAbc .getGlobal a b k st = .ok u st') (hs : Sound Good ps st)
    (ha : a < st.top) (hb : b < st.current.proto.upvalues.size)
    (hk : k ≤ 255 ∧ k < st.current.proto.chunk.constants.size) : Step Good ps st st' st.top := by
  have htop := hs.top_le
  have hmax := hs.registers_le
  have hlimit := upvalues_le hs
  refine emitAbc_step h hs rfl (by simp) (by omega) (by omega) (by omega) ⟨?_, ?_, ?_⟩
  · simp only [Opcode.runs, List.mem_singleton]
    rintro run rfl
    exact .inr (by omega)
  · rintro _ ⟨⟩
    exact hk.2
  · rintro _ ⟨⟩
    exact hb

theorem emitSetGlobal_step {v : Nat} (h : emitAbc .setGlobal b k v st = .ok u st')
    (hs : Sound Good ps st) (hv : v < st.top) (hb : b < st.current.proto.upvalues.size)
    (hk : k ≤ 255 ∧ k < st.current.proto.chunk.constants.size) : Step Good ps st st' st.top := by
  have htop := hs.top_le
  have hmax := hs.registers_le
  have hlimit := upvalues_le hs
  refine emitAbc_step h hs rfl (by simp) (by omega) (by omega) (by omega) ⟨?_, ?_, ?_⟩
  · simp only [Opcode.runs, List.mem_singleton]
    rintro run rfl
    exact .inr (by omega)
  · rintro _ ⟨⟩
    exact hk.2
  · rintro _ ⟨⟩
    exact hb

end Access

/-! ## Globals -/

/-- The three ways to reach a field are sound when at least `t` registers are in use. -/
structure AccessSound (Good : Prototype → Prop) (t : Nat)
    (field element upvalueField : Nat → Nat → Gen Unit) : Prop where
  field : ∀ (r k : Nat) (ps : List Nat) (st st' : State) (u : Unit), Sound Good ps st →
    t ≤ st.top → r < st.top → k ≤ 255 ∧ k < st.current.proto.chunk.constants.size →
    field r k st = .ok u st' → Step Good ps st st' st.top
  element : ∀ (r k : Nat) (ps : List Nat) (st st' : State) (u : Unit), Sound Good ps st →
    t ≤ st.top → r < st.top → k < st.top → element r k st = .ok u st' → Step Good ps st st' st.top
  upvalueField : ∀ (v k : Nat) (ps : List Nat) (st st' : State) (u : Unit), Sound Good ps st →
    t ≤ st.top → v < st.current.proto.upvalues.size →
    k ≤ 255 ∧ k < st.current.proto.chunk.constants.size → upvalueField v k st = .ok u st' →
    Step Good ps st st' st.top

theorem globalAccess_step {name : String} {field element upvalueField : Nat → Nat → Gen Unit}
    (h : globalAccess name field element upvalueField st = .ok u st') (hs : Sound Good ps st)
    (ha : AccessSound Good st.top field element upvalueField) : Step Good ps st st' st.top := by
  simp only [globalAccess, bind_ok, currentLine_ok, and_assoc, exists_and_left,
    exists_eq_left] at h
  obtain ⟨env, st₁, henv, key, st₂, hkey, h⟩ := h
  obtain ⟨hstep₁, hregister, hupvalue⟩ := resolve_step henv hs
  obtain ⟨hstep', hplace⟩ := keyPlace?_step hkey hstep₁.sound
  have hstep₂ := hstep₁.trans hstep'
  have htop₁ := hstep₁.top_eq
  have htop₂ := hstep₂.top_eq
  have hlevel := hs.level_le
  split at h
  next r c k =>
    have hr := hregister _ _ rfl
    exact (hstep₂.trans (ha.field _ _ _ _ _ _ hstep₂.sound (by omega) (by omega) (hplace _ rfl)
      h)).cast (by omega)
  next r c =>
    have hr := hregister _ _ rfl
    simp only [bind_ok] at h
    obtain ⟨keyRegister, st₃, hreserve, place, st₄, hconst, _, st₅, hload, _, st₆, hread, h⟩ := h
    obtain ⟨hstep₃', rfl⟩ := reserve_step hreserve hstep₂.sound
    have hstep₃ := hstep₂.trans hstep₃'
    have htop₃ := hstep₃.top_eq
    have hstep₅ := hstep₃.trans
      (loadPool_step (bind_ok.mpr ⟨place, st₄, hconst, hload⟩) hstep₃.sound (by omega))
    have htop₅ := hstep₅.top_eq
    have hstep₆ := hstep₅.trans
      (ha.element _ _ _ _ _ _ hstep₅.sound (by omega) (by omega) (by omega) hread)
    exact (release_saved h ⟨_, hstep₆⟩).cast (by omega)
  next v c k =>
    have hv := hupvalue _ _ rfl
    have hgrow := hstep'.grows.upvalues_size_le
    exact (hstep₂.trans (ha.upvalueField _ _ _ _ _ _ hstep₂.sound (by omega) (by omega)
      (hplace _ rfl) h)).cast (by omega)
  next v c =>
    have hv := hupvalue _ _ rfl
    simp only [bind_ok] at h
    obtain ⟨r, st₃, hreserve, _, st₄, hget, place, st₅, hconst, _, st₆, hload, _, st₇, hread,
      h⟩ := h
    obtain ⟨hstep₃', rfl⟩ := reserve_step hreserve hstep₂.sound
    have hstep₃ := hstep₂.trans hstep₃'
    have htop₃ := hstep₃.top_eq
    have hgrow := (hstep'.trans hstep₃').grows.upvalues_size_le
    have hstep₄ := hstep₃.trans
      (emitUpvalue_step hget (.inl rfl) hstep₃.sound (by omega) (by omega))
    have htop₄ := hstep₄.top_eq
    have hstep₆ := hstep₄.trans
      (loadPool_step (bind_ok.mpr ⟨place, st₅, hconst, hload⟩) hstep₄.sound (by omega))
    have htop₆ := hstep₆.top_eq
    have hstep₇ := hstep₆.trans
      (ha.element _ _ _ _ _ _ hstep₆.sound (by omega) (by omega) (by omega) hread)
    exact (release_saved h ⟨_, hstep₇⟩).cast (by omega)
  next =>
    simp only [bind_ok, defect_ok, and_false, exists_false] at h

theorem accessSound_get {a t : Nat} (ha : a < t) :
    AccessSound Good t (fun r k => emitAbc .getField a r k) (fun r k => emitAbc .getTable a r k)
      fun u k => emitAbc .getGlobal a u k := by
  refine ⟨?_, ?_, ?_⟩
  · intro r k ps' s s' u' hs' ht hr hk h'
    exact emitGetField_step h' hs' (by omega) hr hk
  · intro r k ps' s s' u' hs' ht hr hk h'
    exact emitOperation_step h' hs' rfl (by simp) ⟨rfl, rfl⟩ rfl (by omega) hr hk
  · intro v k ps' s s' u' hs' ht hv hk h'
    exact emitGetGlobal_step h' hs' (by omega) hv hk

theorem accessSound_set {v t : Nat} (hv : v < t) :
    AccessSound Good t (fun r k => emitAbc .setField r k v) (fun r k => emitAbc .setTable r k v)
      fun u k => emitAbc .setGlobal u k v := by
  refine ⟨?_, ?_, ?_⟩
  · intro r k ps' s s' u' hs' ht hr hk h'
    exact emitSetField_step h' hs' hr (by omega) hk
  · intro r k ps' s s' u' hs' ht hr hk h'
    exact emitOperation_step h' hs' rfl (by simp) ⟨rfl, rfl⟩ rfl hr hk (by omega)
  · intro w k ps' s s' u' hs' ht hw hk h'
    exact emitSetGlobal_step h' hs' (by omega) hw hk

theorem globalGet_step {name : String} {a : Nat} (h : globalGet name a st = .ok u st')
    (hs : Sound Good ps st) (ha : a < st.top) : Step Good ps st st' st.top :=
  globalAccess_step h hs (accessSound_get ha)

theorem globalSet_step {name : String} {v : Nat} (h : globalSet name v st = .ok u st')
    (hs : Sound Good ps st) (hv : v < st.top) : Step Good ps st st' st.top :=
  globalAccess_step h hs (accessSound_set hv)

theorem compileName_step {name : String} {a : Nat} (h : compileName name line a st = .ok u st')
    (hs : Sound Good ps st) (ha : a < st.top) : Step Good ps st st' st.top := by
  simp only [compileName, bind_ok] at h
  obtain ⟨_, st₁, hline, reference, st₂, hresolve, h⟩ := h
  have hstep₁ := setLine_step hline hs
  obtain ⟨hstep', hregister, hupvalue⟩ := resolve_step hresolve hstep₁.sound
  have hstep₂ := hstep₁.trans hstep'
  have htop₁ := hstep₁.top_eq
  have htop₂ := hstep₂.top_eq
  have hlevel := hstep₁.sound.level_le
  split at h
  next r c =>
    have hr := hregister _ _ rfl
    split at h
    · exact (hstep₂.trans (emitMove_step h hstep₂.sound (by omega) (by omega))).cast (by omega)
    · simp only [pure_ok] at h
      obtain ⟨-, rfl⟩ := h
      exact hstep₂.cast htop₁
  next v c =>
    have hv := hupvalue _ _ rfl
    exact (hstep₂.trans (emitUpvalue_step h (.inl rfl) hstep₂.sound (by omega) hv)).cast (by omega)
  next =>
    exact (hstep₂.trans (globalGet_step h hstep₂.sound (by omega))).cast (by omega)

/-! ## Assignment -/

/-- What the target names exists when at least `t` registers are in use. -/
def TargetWithin (p : Prototype) (t : Nat) : Target → Prop
  | .variable (.register r _) _ => r < t
  | .variable (.upvalue v _) _ => v < p.upvalues.size
  | .variable .global _ => True
  | .field table k => table < t ∧ k ≤ 255 ∧ k < p.chunk.constants.size
  | .element table key => table < t ∧ key < t

theorem TargetWithin.mono {p p' : Prototype} {t t' : Nat} {x : Target} (h : TargetWithin p t x)
    (hg : p.Grows p') (ht : t ≤ t') : TargetWithin p' t' x := by
  have hup := hg.upvalues_size_le
  have hconst := hg.constants_size_le
  unfold TargetWithin at h ⊢
  split <;> simp only at h <;> first | trivial | omega

theorem nameTarget_step {name : String} {x : Target} (h : nameTarget name line st = .ok x st')
    (hs : Sound Good ps st) :
    Step Good ps st st' st.top ∧ TargetWithin st'.current.proto st.top x := by
  simp only [nameTarget, bind_ok] at h
  obtain ⟨reference, st₁, hresolve, h⟩ := h
  obtain ⟨hstep, hregister, hupvalue⟩ := resolve_step hresolve hs
  have hlevel := hs.level_le
  split at h
  · simp only [bind_ok, throw_ok, false_and, exists_false] at h
  · simp only [pure_ok] at h
    obtain ⟨rfl, rfl⟩ := h
    refine ⟨hstep, ?_⟩
    unfold TargetWithin
    split
    next r c _ heq =>
      cases heq
      have hr := hregister _ _ rfl
      omega
    next v c _ heq =>
      cases heq
      exact hupvalue _ _ rfl
    next => trivial
    next heq => cases heq
    next heq => cases heq

theorem store_step {x : Target} {v : Nat} (h : store x v st = .ok u st') (hs : Sound Good ps st)
    (hx : TargetWithin st.current.proto st.top x) (hv : v < st.top) :
    Step Good ps st st' st.top := by
  unfold store at h
  split at h
  · exact emitSetField_step h hs hx.1 hv hx.2
  · exact emitOperation_step h hs rfl (by simp) ⟨rfl, rfl⟩ rfl hx.1 hx.2 hv
  · exact emitMove_step h hs hx hv
  · exact emitUpvalue_step h (.inr rfl) hs hv hx
  · exact globalSet_step h hs hv

theorem storeAll_step {xs : List Target} {v : Nat} (h : storeAll xs v st = .ok u st')
    (hs : Sound Good ps st) (hxs : ∀ x ∈ xs, TargetWithin st.current.proto st.top x)
    (hv : v + xs.length ≤ st.top) : Step Good ps st st' st.top := by
  induction xs generalizing v u st' with
  | nil =>
    simp only [storeAll, pure_ok] at h
    obtain ⟨-, rfl⟩ := h
    exact .refl hs
  | cons x rest ih =>
    simp only [storeAll, bind_ok] at h
    obtain ⟨_, st₁, hrest, h⟩ := h
    simp only [List.length_cons] at hv
    have hstep := ih hrest (fun y hy => hxs y (List.mem_cons_of_mem _ hy)) (by omega)
    have htop := hstep.top_eq
    have hx := (hxs x (List.mem_cons_self ..)).mono hstep.grows (Nat.le_of_eq htop.symm)
    exact (hstep.trans (store_step h hstep.sound hx (by omega))).cast htop

/-! ## Conditions -/

/-- The jump is not patched yet. -/
theorem jumpIfFalse_step {condition : Expr} {n : Nat}
    (h : jumpIfFalse condition e st = .ok n st') (hs : Sound Good ps st)
    (he : EvaluationSound Good e) :
    Step Good ps st st' st.top ∧ st.current.proto.chunk.size ≤ n ∧
      st'.current.proto.opcodeAt? n = some .jump := by
  simp only [jumpIfFalse, bind_ok, free_ok, pure_ok, and_assoc, exists_and_left,
    exists_eq_left] at h
  obtain ⟨r, st₁, hvalue, _, st₂, hline, _, st₃, htest, jump, st₄, hjump, _, st₅, hrelease, rfl,
    rfl⟩ := h
  obtain ⟨t, hstep₁, hr, -⟩ := toAnyRegister_step hvalue hs he
  have hstep₂ := hstep₁.trans (setLine_step hline hstep₁.sound)
  have htop₁ := hstep₁.top_eq
  have htop₂ := hstep₂.top_eq
  have hregisters := hstep₂.sound.top_le
  obtain ⟨hsound, hkeeps, htop, hn, hop⟩ :=
    emitTest_step htest hjump hstep₂.sound (by omega) (by omega)
  have hstep₄ : Step Good ps st st₄ t := ⟨hsound, hstep₂.keeps.trans hkeeps, by omega⟩
  have hrelease' := (release_step hrelease hsound).1
  have hsize := hstep₂.grows.size
  exact ⟨hstep₄.trans hrelease', by omega, hrelease'.grows.opcodeAt? hop⟩

end Generator
end LuaMachine
