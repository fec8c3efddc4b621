import LuaMachine.Proofs.Generator.Writing
/-! # Lines, registers and names

The actions that write no words: what they do to a sound state.

* `setLine_step`, `reserve_step`, `release_step`, `resolve_step`: each keeps the state sound and says
  how many registers are in use afterwards.
-/
set_option autoImplicit false

namespace LuaMachine
namespace Generator

variable {Good : Prototype → Prop} {ps : List Nat} {st st' : State}

/-! ## Lines -/

theorem setLine_step {line : Nat} {u : Unit} (h : setLine line st = .ok u st')
    (hs : Sound Good ps st) : Step Good ps st st' st.top := by
  simp only [setLine, modify_ok] at h
  subst h
  exact ⟨⟨hs.exists_scope, hs.current, hs.nested⟩,
    ⟨.refl _, FunctionScope.widens_refl _, rfl, rfl⟩, rfl⟩

theorem currentLine_ok {line : Nat} : currentLine st = .ok line st' ↔ line = st.line ∧ st' = st := by
  simp only [currentLine, bind_ok, get_ok, pure_ok]
  constructor
  · rintro ⟨_, _, ⟨rfl, rfl⟩, rfl, rfl⟩
    exact ⟨rfl, rfl⟩
  · rintro ⟨rfl, rfl⟩
    exact ⟨_, _, ⟨rfl, rfl⟩, rfl, rfl⟩

theorem here_ok {n : Nat} : here st = .ok n st' ↔ n = st.current.proto.chunk.size ∧ st' = st := by
  simp only [here, bind_ok, scope_ok, pure_ok]
  constructor
  · rintro ⟨_, _, ⟨rfl, rfl⟩, rfl, rfl⟩
    exact ⟨rfl, rfl⟩
  · rintro ⟨rfl, rfl⟩
    exact ⟨_, _, ⟨rfl, rfl⟩, rfl, rfl⟩

theorem free_ok {n : Nat} : free st = .ok n st' ↔ n = st.top ∧ st' = st := by
  simp only [free, bind_ok, scope_ok, pure_ok]
  constructor
  · rintro ⟨_, _, ⟨rfl, rfl⟩, rfl, rfl⟩
    exact ⟨rfl, rfl⟩
  · rintro ⟨rfl, rfl⟩
    exact ⟨_, _, ⟨rfl, rfl⟩, rfl, rfl⟩

/-! ## Registers -/

/-- A scope with other numbers of registers in use and in all. -/
theorem step_registers {f : FunctionScope → FunctionScope} (free : Int) (registers : Nat)
    (hf : f st.current = { st.current with
      proto := { st.current.proto with registers := registers }, free := free })
    (hs : Sound Good ps st) (hlevel : (st.level : Int) ≤ free) (htop : free ≤ registers)
    (hgrow : st.current.proto.registers ≤ registers) (hmax : registers ≤ 250) :
    Step Good ps st (st.mapCurrent f) free.toNat := by
  have hg : st.current.proto.Grows (f st.current).proto := by
    rw [hf]
    exact ⟨hgrow, fun _ _ h => h, fun _ _ h => h, fun _ _ h => h, Nat.le_refl _, fun _ _ => rfl, rfl⟩
  have hproto : (f st.current).proto.Sound Good ps := by
    have hwords : ∀ (n : Nat) (i : Instruction), (f st.current).proto.chunk.code[n]? = some i →
        n ∉ ps → ∃ op, i.opcode? = some op ∧ i.FitsAt (f st.current).proto n op := by
      refine hs.current.proto.words_of_grows hg fun n i hi hn => .inl ⟨?_, hn⟩
      rw [hf] at hi
      exact hi
    have hchildren := fun q => hs.current.proto.children_of_grows hg (q := q)
    rw [hf] at hwords hchildren ⊢
    exact ⟨hmax, hs.current.proto.constants, hs.current.proto.places, hwords, hchildren⟩
  have hsettled : (f st.current).proto.Landing (f st.current).proto.chunk.size := by
    have hl := hg.landing hs.current.settled
    rw [hf] at hl ⊢
    exact hl
  have hcurrent : (f st.current).Sound Good ps := by
    refine hs.current.of_grows hg hproto hsettled ?_ ?_ ?_ ?_
    all_goals rw [hf]
    · exact hlevel
    · exact htop
  refine ⟨hs.mapCurrent hcurrent (by rw [hf]), .mapCurrent hs.exists_scope ?_ (by rw [hf]), ?_⟩
  · refine ⟨⟨hg, by rw [hf], by rw [hf], by rw [hf], fun n _ => by rw [hf]⟩, fun n i hn hi => ?_⟩
    rw [hf] at hi
    exact absurd (Prototype.lt_size_of_word hi) (Nat.not_lt.mpr hn)
  · unfold State.top
    rw [State.current_mapCurrent hs.exists_scope, hf]

/-- Making sure of registers changes their number only, and stops at the limit. -/
theorem ensureRegisters_ok {s s' : FunctionScope} {count : Int} {line : Nat}
    (h : s.ensureRegisters count line = .ok s') :
    s' = { s with proto := { s.proto with registers := max s.proto.registers count.toNat } } ∧
      count ≤ 250 := by
  unfold FunctionScope.ensureRegisters at h
  have hmax : (FunctionScope.maxRegisters : Int) = 250 := rfl
  split at h
  · cases h
  · split at h
    · cases h
      rw [Nat.max_eq_right (by omega)]
      exact ⟨rfl, by omega⟩
    · cases h
      rw [Nat.max_eq_left (by omega)]
      obtain ⟨⟨⟩⟩ := s
      exact ⟨rfl, by omega⟩

theorem ensureRegisters_step {count : Int} {line : Nat} {u : Unit}
    (h : onScope' (fun s => s.ensureRegisters count line) st = .ok u st') (hs : Sound Good ps st) :
    Step Good ps st st' st.top ∧ count ≤ st'.current.proto.registers := by
  obtain ⟨s, hensure, rfl⟩ := onScope'_ok h
  obtain ⟨rfl, hle⟩ := ensureRegisters_ok hensure
  have hfree := hs.free_eq
  have hlevel := hs.level_le
  have htop := hs.top_le
  have hmax := hs.registers_le
  refine ⟨(step_registers st.top (max st.current.proto.registers count.toNat) ?_ hs ?_ ?_ ?_
    ?_).cast ?_, ?_⟩
  · rw [← hfree]
  · omega
  · omega
  · omega
  · omega
  · omega
  · rw [State.current_mapCurrent hs.exists_scope]
    change count ≤ ((max st.current.proto.registers count.toNat : Nat) : Int)
    omega

theorem reserve_step {count line r : Nat} (h : reserve count line st = .ok r st')
    (hs : Sound Good ps st) : Step Good ps st st' (st.top + count) ∧ r = st.top := by
  simp only [reserve, bind_ok, pure_ok] at h
  obtain ⟨register, st₁, h, rfl, rfl⟩ := h
  obtain ⟨s, hreserve, rfl⟩ := onScope_ok h
  unfold FunctionScope.reserve at hreserve
  split at hreserve
  next s' hensure =>
    simp only [Except.ok.injEq, Prod.mk.injEq] at hreserve
    obtain ⟨rfl, rfl⟩ := hreserve
    obtain ⟨rfl, hle⟩ := ensureRegisters_ok hensure
    have hfree := hs.free_eq
    have hlevel := hs.level_le
    have htop := hs.top_le
    have hmax := hs.registers_le
    refine ⟨(step_registers (st.top + count)
      (max st.current.proto.registers (st.current.free + count).toNat) ?_ hs ?_ ?_ ?_ ?_).cast ?_,
      rfl⟩
    · rw [← hfree]
    all_goals omega
  next e => cases hreserve

theorem release_ok {r : Nat} {u : Unit} (h : release r st = .ok u st') :
    (st.current.locals.size : Int) ≤ r ∧ (r : Int) ≤ st.current.free ∧
      st' = st.mapCurrent fun _ => { st.current with free := (r : Int) } := by
  obtain ⟨s, hrelease, rfl⟩ := onScope'_ok h
  unfold FunctionScope.release FunctionScope.localsLevel at hrelease
  split at hrelease
  next => cases hrelease
  next hin =>
    simp only [Bool.or_eq_true, decide_eq_true_eq, not_or] at hin
    cases hrelease
    exact ⟨by omega, by omega, rfl⟩

theorem release_step {r : Nat} {u : Unit} (h : release r st = .ok u st') (hs : Sound Good ps st) :
    Step Good ps st st' r ∧ st.level ≤ r ∧ r ≤ st.top := by
  obtain ⟨hlocals, hin, rfl⟩ := release_ok h
  have hfree := hs.free_eq
  have htop := hs.top_le
  have hmax := hs.registers_le
  have hlevel : st.level ≤ r ∧ r ≤ st.top := by
    unfold State.level
    omega
  refine ⟨(step_registers r st.current.proto.registers ?_ hs ?_ ?_ ?_ ?_).cast ?_, hlevel⟩
  · obtain ⟨⟨⟩⟩ := st.current
    rfl
  all_goals omega

theorem releaseAbove_step {r : Nat} {u : Unit} (h : releaseAbove r st = .ok u st')
    (hs : Sound Good ps st) : Step Good ps st st' (min r st.top) := by
  simp only [releaseAbove, bind_ok, free_ok] at h
  obtain ⟨_, _, ⟨rfl, rfl⟩, h⟩ := h
  split at h
  · have hr := (release_step h hs).1
    exact hr.cast (by omega)
  · simp only [pure_ok] at h
    obtain ⟨-, rfl⟩ := h
    exact (Step.refl hs).cast (by omega)

theorem isTop_ok {r : Nat} {b : Bool} (h : isTop r st = .ok b st') (hs : Sound Good ps st) :
    st' = st ∧ (b = true → r + 1 = st.top ∧ st.level ≤ r) := by
  simp only [isTop, bind_ok, scope_ok, pure_ok] at h
  obtain ⟨_, _, ⟨rfl, rfl⟩, rfl, rfl⟩ := h
  have hfree := hs.free_eq
  refine ⟨rfl, fun hb => ?_⟩
  simp only [Bool.and_eq_true, decide_eq_true_eq] at hb
  unfold FunctionScope.localsLevel at hb
  unfold State.level
  omega

/-! ## Names -/

theorem grows_of_widens {s s' : FunctionScope} (h : s.Widens s') : s.proto.Grows s'.proto := by
  have hupvalue := h.upvalue
  obtain ⟨us, cs, rfl⟩ := h
  exact ⟨Nat.le_refl _, fun _ _ h => h, hupvalue, fun _ _ hq => hq, Nat.le_refl _, fun _ _ => rfl,
    rfl⟩

theorem sound_of_widens {s s' : FunctionScope} (h : s.Widens s') (hs : s.Sound Good ps) :
    s'.Sound Good ps := by
  have hg := grows_of_widens h
  have hsettled := hg.landing hs.settled
  obtain ⟨us, cs, rfl⟩ := h
  exact hs.of_grows hg ⟨hs.proto.registers, hs.proto.constants, hs.proto.places,
    hs.proto.words_of_grows hg fun n i hi hn => .inl ⟨hi, hn⟩,
    fun q hq => hs.proto.children_of_grows hg hq⟩ hsettled rfl rfl hs.level hs.top

theorem keeps_of_widens {s s' : FunctionScope} (h : s.Widens s') : s.Keeps s' := by
  have hg := grows_of_widens h
  obtain ⟨us, cs, rfl⟩ := h
  exact ⟨⟨hg, rfl, rfl, rfl, fun _ _ => rfl⟩,
    fun _ _ hn hi => absurd (Prototype.lt_size_of_word hi) (Nat.not_lt.mpr hn)⟩

theorem step_of_widens {scopes : List FunctionScope} (hs : Sound Good ps st)
    (hnested : FunctionScope.Nested scopes)
    (hw : List.Forall₂ FunctionScope.Widens st.scopes scopes)
    (hgiven : FunctionScope.given scopes = FunctionScope.given st.scopes) :
    Step Good ps st { st with scopes := scopes } st.top := by
  obtain ⟨all, line, captured⟩ := st
  cases hw with
  | nil => exact absurd rfl hs.exists_scope
  | cons hhead hrest =>
    refine ⟨⟨by simp, sound_of_widens hhead hs.current, hnested⟩,
      ⟨keeps_of_widens hhead, hrest, rfl, hgiven⟩, ?_⟩
    obtain ⟨us, cs, rfl⟩ := hhead
    rfl

/-- The code stays as it is when scopes get further upvalues. -/
theorem chunk_of_widens {scopes : List FunctionScope}
    (hw : List.Forall₂ FunctionScope.Widens st.scopes scopes) :
    ({ st with scopes := scopes } : State).current.proto.chunk = st.current.proto.chunk := by
  obtain ⟨all, line, captured⟩ := st
  cases hw with
  | nil => rfl
  | cons hhead _ =>
    obtain ⟨us, cs, rfl⟩ := hhead
    rfl

theorem resolve_chunk {name : String} {line : Nat} {r : Reference}
    (h : resolve name line st = .ok r st') (hs : Sound Good ps st) :
    st'.current.proto.chunk = st.current.proto.chunk := by
  simp only [resolve, bind_ok, get_ok, set_ok, and_assoc, exists_and_left, exists_eq_left,
    exists_const] at h
  rcases hresolve : FunctionScope.resolve name line st.scopes with ⟨scopes, e | r'⟩
  · simp only [hresolve, throw_ok] at h
  · simp only [hresolve, pure_ok] at h
    obtain ⟨-, rfl⟩ := h
    exact chunk_of_widens (FunctionScope.resolve_spec hresolve hs.nested).2.1

theorem resolve_step {name : String} {line : Nat} {r : Reference}
    (h : resolve name line st = .ok r st') (hs : Sound Good ps st) :
    Step Good ps st st' st.top ∧ (∀ i c, r = .register i c → i < st.level) ∧
      ∀ i c, r = .upvalue i c → i < st'.current.proto.upvalues.size := by
  simp only [resolve, bind_ok, get_ok, set_ok, and_assoc, exists_and_left, exists_eq_left,
    exists_const] at h
  rcases hresolve : FunctionScope.resolve name line st.scopes with ⟨scopes, e | r'⟩
  · simp only [hresolve, throw_ok] at h
  · simp only [hresolve, pure_ok] at h
    obtain ⟨rfl, rfl⟩ := h
    obtain ⟨hnested, hw, hgiven, hregister, hupvalue⟩ := FunctionScope.resolve_spec hresolve hs.nested
    refine ⟨step_of_widens hs hnested hw hgiven, fun i c heq => ?_, fun i c heq => ?_⟩
    · obtain ⟨s, outer, l, hscopes, -, hmem, rfl⟩ := hregister i c heq
      have hcurrent : st.current = s := by rw [State.current, hscopes]; rfl
      exact hs.current.register_lt (hcurrent ▸ hmem)
    · obtain ⟨s, outer, rfl, hfound⟩ := hupvalue i c heq
      obtain ⟨u, hu, -⟩ := FunctionScope.exists_of_findUpvalue hfound
      exact (Array.getElem?_eq_some_iff.mp hu).1

end Generator
end LuaMachine
