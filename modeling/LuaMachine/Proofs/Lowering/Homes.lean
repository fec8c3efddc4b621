import LuaMachine.Proofs.Generator.Registers
/-! # Where the values of names are found

A name stands for a register of the function that is compiled, for one of its upvalues, or for a
global. Compiling an expression gives the function further upvalues, but what was looked up before
keeps its place: an upvalue of a name is only added if a function around has a variable of that name.

* `FunctionScope.home`: where a scope finds a name.
* `Generator.LookedUp`: what can be said about a name once it was looked up.
* `Generator.resolve_lookedUp`, `Generator.LookedUp.step`: what was looked up stays where it is.
-/
set_option autoImplicit false

namespace LuaMachine

/-- Where a function finds the value of a name. -/
inductive Home where
  | register (index : Nat)
  | upvalue (index : Nat)
  | global
deriving DecidableEq, Repr

def Reference.home : Reference → Home
  | .register i _ => .register i
  | .upvalue i _ => .upvalue i
  | .global => .global

namespace FunctionScope

variable {s s' t : FunctionScope} {scopes scopes' outer : List FunctionScope} {name : String}
  {line : Nat}

def home (s : FunctionScope) (name : String) : Home :=
  match s.findLocal name with
  | some l => .register l.register
  | none =>
    match s.findUpvalue name with
    | some i => .upvalue i
    | none => .global

theorem home_of_local {l : Local} (h : s.findLocal name = some l) :
    s.home name = .register l.register := by
  simp only [home, h]

theorem home_of_upvalue {i : Nat} (hl : s.findLocal name = none)
    (hu : s.findUpvalue name = some i) : s.home name = .upvalue i := by
  simp only [home, hl, hu]

theorem home_of_neither (hl : s.findLocal name = none) (hu : s.findUpvalue name = none) :
    s.home name = .global := by
  simp only [home, hl, hu]

theorem Widens.findLocal (h : s.Widens s') (name : String) :
    s'.findLocal name = s.findLocal name := by
  unfold FunctionScope.findLocal
  rw [h.locals]

/-- Further upvalues do not hide the first one of a name. -/
theorem findUpvalue_of_grows (hg : s.proto.Grows s'.proto) {i : Nat}
    (h : s.findUpvalue name = some i) : s'.findUpvalue name = some i := by
  obtain ⟨hi, hname, hbefore⟩ := Array.findIdx?_eq_some_iff_getElem.mp h
  have hsize := hg.upvalues_size_le
  have hsame : ∀ j (hj : j < s.proto.upvalues.size) (hj' : j < s'.proto.upvalues.size),
      s'.proto.upvalues[j] = s.proto.upvalues[j] := by
    intro j hj hj'
    have hu := hg.upvalues j _ (Array.getElem?_eq_getElem hj)
    rw [Array.getElem?_eq_getElem hj'] at hu
    exact Option.some.inj hu
  refine Array.findIdx?_eq_some_iff_getElem.mpr ⟨by omega, ?_, fun j hj => ?_⟩
  · rw [hsame i hi (by omega)]
    exact hname
  · rw [hsame j (by omega) (by omega)]
    exact hbefore j hj

/-! ## Names that nothing stands for -/

/-- No function around has a variable of the name, and no function an upvalue. -/
structure Unknown (name : String) (scopes : List FunctionScope) : Prop where
  locals : ∀ s ∈ scopes.tail, s.findLocal name = none
  upvalues : ∀ s ∈ scopes, s.findUpvalue name = none

/-- A look-up that finds nothing has asked all functions. -/
theorem unknown_of_resolveUpvalue
    (h : resolveUpvalue name line scopes = (scopes', .ok none)) :
    Unknown name scopes ∧ scopes' = scopes := by
  induction scopes generalizing scopes' with
  | nil =>
    simp only [resolveUpvalue, Prod.mk.injEq, and_true] at h
    exact ⟨⟨by simp, by simp⟩, h.symm⟩
  | cons s outer ih =>
    rw [resolveUpvalue] at h
    cases hfind : s.findUpvalue name with
    | some i => simp [hfind] at h
    | none =>
      simp only [hfind] at h
      cases hlocal : outer.head?.bind fun t => t.findLocal name with
      | some l =>
        simp only [hlocal] at h
        split at h
        · unfold addedUpvalue at h
          split at h <;> simp at h
        · simp at h
      | none =>
        simp only [hlocal] at h
        rcases hrest : resolveUpvalue name line outer with ⟨outer', e | _ | x⟩
        · simp [hrest] at h
        · obtain ⟨hunknown, heq⟩ := ih hrest
          simp only [hrest, heq, Prod.mk.injEq, and_true] at h
          refine ⟨⟨fun t ht => ?_, fun t ht => ?_⟩, h.symm⟩
          · cases outer with
            | nil => cases ht
            | cons u rest =>
              rcases List.mem_cons.mp ht with rfl | ht
              · simpa using hlocal
              · exact hunknown.locals t ht
          · rcases List.mem_cons.mp ht with rfl | ht
            · exact hfind
            · exact hunknown.upvalues t ht
        · simp only [hrest] at h
          unfold addedUpvalue at h
          split at h <;> simp at h

/-- Every upvalue comes from a variable or an upvalue of its name, so none of this name comes about.
The induction goes outwards, up to the upvalues that the main program is given. -/
theorem Nested.lacks (h : Nested scopes)
    (hlocals : ∀ s ∈ scopes.tail, s.findLocal name = none)
    (hgiven : ∀ us, given scopes = some us → ∀ u ∈ us, u.name ≠ name) :
    ∀ s ∈ scopes, ∀ u ∈ s.proto.upvalues, u.name ≠ name := by
  induction h with
  | nil => simp
  | @cons s outer registers limit sources nested ih =>
    cases outer with
    | nil =>
      intro t ht
      rw [List.mem_singleton.mp ht]
      exact hgiven _ rfl
    | cons t rest =>
      have hrest := ih (fun u hu => hlocals u (List.mem_cons_of_mem t hu)) fun us hus =>
        hgiven us (by rw [given_cons_cons]; exact hus)
      intro x hx
      rcases List.mem_cons.mp hx with rfl | hx
      · intro u hu hname
        obtain ⟨hregister, hupvalue⟩ := sources u hu
        cases hfrom : u.fromRegister with
        | true =>
          obtain ⟨l, hl, -, -, hl'⟩ := hregister hfrom
          have hnone := hlocals t List.mem_cons_self
          unfold findLocal at hnone
          rw [Array.findRev?_eq_find?_reverse, Array.find?_eq_none] at hnone
          exact hnone l (by simpa using hl) (by simp [hl', hname])
        | false =>
          obtain ⟨w, hw, hw'⟩ := hupvalue hfrom
          exact hrest t List.mem_cons_self w (Array.mem_of_getElem? hw) (hw'.trans hname)
      · exact hrest x hx

theorem findUpvalue_eq_none_iff :
    s.findUpvalue name = none ↔ ∀ u ∈ s.proto.upvalues, u.name ≠ name := by
  simp [findUpvalue, Array.findIdx?_eq_none_iff]

theorem findLocal_of_widens {outer' : List FunctionScope} (hw : List.Forall₂ Widens outer outer')
    (h : ∀ t ∈ outer, t.findLocal name = none) : ∀ t ∈ outer', t.findLocal name = none := by
  induction hw with
  | nil => exact h
  | cons hs _ ih =>
    obtain ⟨hfirst, hrest⟩ := List.forall_mem_cons.mp h
    exact List.forall_mem_cons.mpr ⟨(hs.findLocal name).trans hfirst, ih hrest⟩

theorem Unknown.widens (h : Unknown name (s :: outer)) {outer' : List FunctionScope}
    (hn : Nested (s' :: outer')) (hw : List.Forall₂ Widens outer outer')
    (hgiven : given (s' :: outer') = given (s :: outer)) : Unknown name (s' :: outer') := by
  have hlocals := findLocal_of_widens hw h.locals
  have hlacks := hn.lacks hlocals (fun us hus u hu => ?_)
  · exact ⟨hlocals, fun t ht => findUpvalue_eq_none_iff.2 (hlacks t ht)⟩
  · rw [hgiven] at hus
    obtain ⟨t, ht, rfl⟩ := Option.map_eq_some_iff.mp hus
    exact findUpvalue_eq_none_iff.1 (h.upvalues t (List.mem_of_getLast? ht)) u hu

end FunctionScope

/-! ## Names that were looked up -/

namespace Generator

variable {Good : Prototype → Prop} {ps ps' : List Nat} {st st' : State} {name : String}
  {line t : Nat} {r : Reference}

/-- If the name is nothing that the function has, it is nothing that it can get. -/
def LookedUp (name : String) (st : State) : Prop :=
  st.current.home name = .global → FunctionScope.Unknown name st.scopes

theorem resolve_lookedUp (h : resolve name line st = .ok r st') (hs : Sound Good ps st) :
    LookedUp name st' ∧ st'.current.home name = r.home := by
  simp only [resolve, bind_ok, get_ok, set_ok, and_assoc, exists_and_left, exists_eq_left,
    exists_const] at h
  rcases hresolve : FunctionScope.resolve name line st.scopes with ⟨scopes, e | r'⟩
  · simp only [hresolve, throw_ok] at h
  simp only [hresolve, pure_ok] at h
  obtain ⟨rfl, rfl⟩ := h
  rw [State.scopes_eq hs.exists_scope] at hresolve
  unfold FunctionScope.resolve at hresolve
  simp only [List.head?_cons, Option.bind_some] at hresolve
  cases hlocal : st.current.findLocal name with
  | some l =>
    simp only [hlocal, Prod.mk.injEq, Except.ok.injEq] at hresolve
    obtain ⟨rfl, rfl⟩ := hresolve
    have hhome : st.current.home name = .register l.register := FunctionScope.home_of_local hlocal
    refine ⟨fun hglobal => ?_, hhome⟩
    cases hhome.symm.trans hglobal
  | none =>
    simp only [hlocal] at hresolve
    rcases hup : FunctionScope.resolveUpvalue name line (st.current :: st.outer) with
      ⟨scopes', e | _ | ⟨i, c⟩⟩
    · simp [hup] at hresolve
    · simp only [hup, Prod.mk.injEq, Except.ok.injEq] at hresolve
      obtain ⟨rfl, rfl⟩ := hresolve
      obtain ⟨hunknown, rfl⟩ := FunctionScope.unknown_of_resolveUpvalue hup
      exact ⟨fun _ => hunknown, FunctionScope.home_of_neither hlocal
        (hunknown.upvalues _ List.mem_cons_self)⟩
    · simp only [hup, Prod.mk.injEq, Except.ok.injEq] at hresolve
      obtain ⟨rfl, rfl⟩ := hresolve
      have hnested := hs.nested
      rw [State.scopes_eq hs.exists_scope] at hnested
      have hspec := FunctionScope.resolveUpvalue_spec hup hnested
      obtain ⟨s, outer, rfl, hfound⟩ := hspec.exists_upvalue i c rfl
      obtain ⟨hw, -⟩ := List.forall₂_cons.mp hspec.widens
      have hhome : s.home name = .upvalue i :=
        FunctionScope.home_of_upvalue ((hw.findLocal name).trans hlocal) hfound
      refine ⟨fun hglobal => ?_, hhome⟩
      cases hhome.symm.trans hglobal

/-- Where a name is found does not change any more. -/
theorem LookedUp.step (h : LookedUp name st) (hs : Sound Good ps st)
    (hstep : Step Good ps' st st' t) :
    LookedUp name st' ∧ st'.current.home name = st.current.home name := by
  have hlocal : st'.current.findLocal name = st.current.findLocal name := by
    unfold FunctionScope.findLocal
    rw [hstep.keeps.current.locals]
  cases hl : st.current.findLocal name with
  | some l =>
    have hhome := FunctionScope.home_of_local (hlocal.trans hl)
    refine ⟨fun hglobal => ?_, hhome.trans (FunctionScope.home_of_local hl).symm⟩
    cases hhome.symm.trans hglobal
  | none =>
    cases hu : st.current.findUpvalue name with
    | some i =>
      have hhome := FunctionScope.home_of_upvalue (hlocal.trans hl)
        (FunctionScope.findUpvalue_of_grows hstep.grows hu)
      refine ⟨fun hglobal => ?_, hhome.trans (FunctionScope.home_of_upvalue hl hu).symm⟩
      cases hhome.symm.trans hglobal
    | none =>
      have hglobal := FunctionScope.home_of_neither hl hu
      have hunknown := h hglobal
      have hnested := hstep.sound.nested
      have hgiven := hstep.keeps.given
      rw [State.scopes_eq hs.exists_scope] at hunknown hgiven
      rw [State.scopes_eq hstep.sound.exists_scope] at hnested hgiven
      have hafter := hunknown.widens hnested hstep.keeps.outer hgiven
      refine ⟨fun _ => ?_, ?_⟩
      · rw [State.scopes_eq hstep.sound.exists_scope]
        exact hafter
      · rw [hglobal]
        exact FunctionScope.home_of_neither (hlocal.trans hl)
          (hafter.upvalues _ List.mem_cons_self)

end Generator
end LuaMachine
