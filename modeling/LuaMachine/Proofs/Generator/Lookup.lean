import LuaMachine.Scope
import Mathlib.Data.List.Forall2
/-! # Looking up names

Looking up a name adds upvalues to the scopes that it passes and changes nothing else of them. Each
upvalue comes from the next scope outwards: from the register of a captured variable, or from an
upvalue that this scope has.

* `FunctionScope.Widens`: a scope with further upvalues.
* `UpvalueSource.ComesFrom`, `FunctionScope.Nested`: where upvalues come from, in a list of scopes.
* `FunctionScope.resolve_spec`: what a look-up keeps, and that its outcome exists.
-/
set_option autoImplicit false

namespace LuaMachine

/-- The variable or the upvalue of its name is there in the innermost of these scopes. No scope lies
around the main program, whose only upvalue is given. -/
def UpvalueSource.ComesFrom (u : UpvalueSource) : List FunctionScope → Prop
  | [] => True
  | s :: _ =>
    (u.fromRegister = true →
      ∃ l ∈ s.locals, l.captured = true ∧ l.register = u.index ∧ l.name = u.name) ∧
      (u.fromRegister = false → ∃ w, s.proto.upvalues[u.index]? = some w ∧ w.name = u.name)

namespace FunctionScope

/-- The scope got further upvalues. -/
def Widens (s s' : FunctionScope) : Prop :=
  ∃ us cs, s' = { s with
    proto := { s.proto with upvalues := s.proto.upvalues ++ us }
    constantUpvalues := cs }

/-- Scopes, innermost first, of which each has its upvalues from the next one. -/
inductive Nested : List FunctionScope → Prop
  | nil : Nested []
  | cons {s : FunctionScope} {outer : List FunctionScope}
      (registers : ∀ l ∈ s.locals, l.register < s.proto.registers)
      (limit : s.proto.upvalues.size ≤ maxUpvalues)
      (sources : ∀ u ∈ s.proto.upvalues, u.ComesFrom outer) (nested : Nested outer) :
      Nested (s :: outer)

namespace Widens

variable {s s' s'' : FunctionScope}

theorem refl (s : FunctionScope) : s.Widens s := by
  obtain ⟨⟨⟩⟩ := s
  exact ⟨#[], _, by simp only [Array.append_empty]; rfl⟩

theorem trans (h : s.Widens s') (h' : s'.Widens s'') : s.Widens s'' := by
  obtain ⟨us, cs, rfl⟩ := h
  obtain ⟨us', cs', rfl⟩ := h'
  exact ⟨us ++ us', cs', by simp⟩

theorem upvalue (h : s.Widens s') (n : Nat) (u : UpvalueSource)
    (hu : s.proto.upvalues[n]? = some u) : s'.proto.upvalues[n]? = some u := by
  obtain ⟨us, cs, rfl⟩ := h
  exact (Array.getElem?_append_left (Array.getElem?_eq_some_iff.mp hu).1).trans hu

theorem locals (h : s.Widens s') : s'.locals = s.locals := by
  obtain ⟨us, cs, rfl⟩ := h
  rfl

end Widens

theorem forall₂_trans {α : Type} {R : α → α → Prop} (hR : ∀ a b c, R a b → R b c → R a c)
    {as bs cs : List α} (h : List.Forall₂ R as bs) (h' : List.Forall₂ R bs cs) :
    List.Forall₂ R as cs := by
  induction h generalizing cs with
  | nil => exact h'
  | cons hab _ ih =>
    cases h' with
    | cons hbc hrest => exact .cons (hR _ _ _ hab hbc) (ih hrest)

theorem widens_refl (scopes : List FunctionScope) : List.Forall₂ Widens scopes scopes :=
  List.forall₂_same.mpr fun s _ => .refl s

theorem widens_trans {a b c : List FunctionScope} (h : List.Forall₂ Widens a b)
    (h' : List.Forall₂ Widens b c) : List.Forall₂ Widens a c :=
  forall₂_trans (fun _ _ _ => .trans) h h'

theorem comesFrom_widens {u : UpvalueSource} {outer outer' : List FunctionScope}
    (h : List.Forall₂ Widens outer outer') (hu : u.ComesFrom outer) : u.ComesFrom outer' := by
  cases h with
  | nil => exact hu
  | cons hs _ =>
    refine ⟨fun hreg => ?_, fun hup => ?_⟩
    · rw [hs.locals]
      exact hu.1 hreg
    · obtain ⟨w, hw, hname⟩ := hu.2 hup
      exact ⟨w, hs.upvalue _ _ hw, hname⟩

/-- The upvalues of the outermost function, which is the main program. -/
def given (scopes : List FunctionScope) : Option (Array UpvalueSource) :=
  scopes.getLast?.map fun s => s.proto.upvalues

@[simp] theorem given_cons_cons (s t : FunctionScope) (rest : List FunctionScope) :
    given (s :: t :: rest) = given (t :: rest) := by
  simp [given]

theorem given_cons {s s' : FunctionScope} {outer outer' : List FunctionScope}
    (houter : given outer' = given outer) (hw : List.Forall₂ Widens outer outer')
    (hlast : outer = [] → s'.proto.upvalues = s.proto.upvalues) :
    given (s' :: outer') = given (s :: outer) := by
  cases hw with
  | nil => simp [given, hlast rfl]
  | cons hw hrest =>
    rw [given_cons_cons, given_cons_cons]
    exact houter

/-! ## Looking up -/

/-- What a look-up among upvalues does: the scopes are widened and still nested, and the upvalue it
gives is there. -/
structure LooksUp (name : String) (scopes scopes' : List FunctionScope)
    (found : Option (Nat × Bool)) : Prop where
  nested : Nested scopes'
  widens : List.Forall₂ Widens scopes scopes'
  given : given scopes' = given scopes
  exists_upvalue : ∀ i c, found = some (i, c) →
    ∃ s outer, scopes' = s :: outer ∧ s.findUpvalue name = some i

section LookUp

variable {name : String} {line : Nat} {found : Option (Nat × Bool)}
  {scopes scopes' outer outer' : List FunctionScope} {s : FunctionScope}

theorem exists_of_findUpvalue {i : Nat} (h : s.findUpvalue name = some i) :
    ∃ u, s.proto.upvalues[i]? = some u ∧ u.name = name := by
  obtain ⟨hi, hname, -⟩ := Array.findIdx?_eq_some_iff_getElem.mp h
  exact ⟨_, Array.getElem?_eq_getElem hi, by simpa using hname⟩

/-- Adding an upvalue that comes from the scope around. -/
theorem addedUpvalue_spec {source : UpvalueSource} {constant : Bool}
    (h : s.addedUpvalue outer' source constant line = (scopes', .ok found))
    (hnone : s.findUpvalue source.name = none)
    (hs : Nested (s :: outer)) (houter : Nested outer') (hw : List.Forall₂ Widens outer outer')
    (hne : outer ≠ []) (hgiven : given outer' = given outer) (hsource : source.ComesFrom outer') :
    LooksUp source.name (s :: outer) scopes' found := by
  cases hs with
  | cons registers limit sources nested =>
  unfold addedUpvalue addUpvalue at h
  by_cases hmax : maxUpvalues ≤ s.proto.upvalues.size
  · simp [if_pos hmax] at h
  · simp only [if_neg hmax, Prod.mk.injEq, Except.ok.injEq] at h
    obtain ⟨rfl, rfl⟩ := h
    refine ⟨.cons registers ?_ ?_ houter, .cons ⟨#[source], _, by simp; rfl⟩ hw,
      given_cons hgiven hw fun h => absurd h hne, ?_⟩
    · simp only [Array.size_push]
      omega
    · intro u hu
      rcases Array.mem_push.mp hu with hu | rfl
      · exact comesFrom_widens hw (sources u hu)
      · exact hsource
    · rintro i c heq
      cases heq
      refine ⟨_, _, rfl, ?_⟩
      have hnone : s.proto.upvalues.findIdx? (fun u => u.name == source.name) = none := hnone
      simp only [findUpvalue, Array.findIdx?_push, hnone]
      simp

theorem mem_of_findLocal {l : Local} (h : s.findLocal name = some l) :
    l ∈ s.locals ∧ l.name = name := by
  unfold findLocal at h
  rw [Array.findRev?_eq_find?_reverse] at h
  exact ⟨by simpa using Array.mem_of_find?_eq_some h, by simpa using Array.find?_some h⟩

/-- The induction is on the scopes: what is found further out is widened first. -/
theorem resolveUpvalue_spec (h : resolveUpvalue name line scopes = (scopes', .ok found))
    (hs : Nested scopes) : LooksUp name scopes scopes' found := by
  induction scopes generalizing scopes' found with
  | nil =>
    simp only [resolveUpvalue, Prod.mk.injEq, Except.ok.injEq] at h
    obtain ⟨rfl, rfl⟩ := h
    exact ⟨.nil, .nil, rfl, by simp⟩
  | cons s outer ih =>
    have hnested := hs
    cases hs with
    | cons registers limit sources nested =>
    unfold resolveUpvalue at h
    cases hfind : s.findUpvalue name with
    | some i =>
      simp only [hfind, Prod.mk.injEq, Except.ok.injEq] at h
      obtain ⟨rfl, rfl⟩ := h
      exact ⟨hnested, widens_refl _, rfl, fun i' c heq => by cases heq; exact ⟨s, outer, rfl, hfind⟩⟩
    | none =>
      simp only [hfind] at h
      cases hlocal : outer.head?.bind fun enclosing => enclosing.findLocal name with
      | some l =>
        simp only [hlocal] at h
        by_cases hcap : l.captured = true
        · simp only [if_pos hcap] at h
          cases outer with
          | nil => simp at hlocal
          | cons t rest =>
            refine addedUpvalue_spec h hfind hnested nested (widens_refl _) (by simp) rfl ?_
            obtain ⟨hmem, hname⟩ := mem_of_findLocal (s := t) (by simpa using hlocal)
            exact ⟨fun _ => ⟨l, hmem, hcap, rfl, hname⟩, by simp⟩
        · simp [if_neg hcap] at h
      | none =>
        simp only [hlocal] at h
        rcases hrec : resolveUpvalue name line outer with ⟨outer', outcome⟩
        rw [hrec] at h
        rcases outcome with e | _ | ⟨i, c⟩
        · simp at h
        · simp only [Prod.mk.injEq, Except.ok.injEq] at h
          obtain ⟨rfl, rfl⟩ := h
          have hout := ih hrec nested
          have hsources : ∀ u ∈ s.proto.upvalues, u.ComesFrom outer' := fun u hu =>
            comesFrom_widens hout.widens (sources u hu)
          exact ⟨.cons registers limit hsources hout.nested, .cons (.refl s) hout.widens,
            given_cons hout.given hout.widens fun _ => rfl, by simp⟩
        · have hout := ih hrec nested
          obtain ⟨t, rest, rfl, hfound⟩ := hout.exists_upvalue i c rfl
          have hne : outer ≠ [] := fun h => by
            have hw := hout.widens
            rw [h] at hw
            cases hw
          refine addedUpvalue_spec h hfind hnested hout.nested hout.widens hne hout.given ?_
          exact ⟨by simp, fun _ => exists_of_findUpvalue hfound⟩

/-- A name stands for a variable of the innermost scope, for an upvalue that this scope has now, or
for a global. -/
theorem resolve_spec {r : Reference} (h : resolve name line scopes = (scopes', .ok r))
    (hs : Nested scopes) :
    Nested scopes' ∧ List.Forall₂ Widens scopes scopes' ∧ given scopes' = given scopes ∧
      (∀ i c, r = .register i c → ∃ s outer l, scopes = s :: outer ∧ scopes' = scopes ∧
        l ∈ s.locals ∧ l.register = i) ∧
      ∀ i c, r = .upvalue i c → ∃ s outer, scopes' = s :: outer ∧ s.findUpvalue name = some i := by
  unfold resolve at h
  cases hlocal : scopes.head?.bind fun s => s.findLocal name with
  | some l =>
    simp only [hlocal, Prod.mk.injEq, Except.ok.injEq] at h
    obtain ⟨rfl, rfl⟩ := h
    refine ⟨hs, widens_refl _, rfl, fun i c heq => ?_, by simp⟩
    cases heq
    cases scopes with
    | nil => simp at hlocal
    | cons s outer =>
      exact ⟨s, outer, l, rfl, rfl, (mem_of_findLocal (s := s) (by simpa using hlocal)).1, rfl⟩
  | none =>
    simp only [hlocal] at h
    rcases hrec : resolveUpvalue name line scopes with ⟨after, outcome⟩
    rw [hrec] at h
    rcases outcome with e | _ | ⟨i, c⟩
    · simp at h
    · simp only [Prod.mk.injEq, Except.ok.injEq] at h
      obtain ⟨rfl, rfl⟩ := h
      have hout := resolveUpvalue_spec hrec hs
      exact ⟨hout.nested, hout.widens, hout.given, by simp, by simp⟩
    · simp only [Prod.mk.injEq, Except.ok.injEq] at h
      obtain ⟨rfl, rfl⟩ := h
      have hout := resolveUpvalue_spec hrec hs
      refine ⟨hout.nested, hout.widens, hout.given, by simp, fun i' c' heq => ?_⟩
      cases heq
      exact hout.exists_upvalue i c rfl

end LookUp

end FunctionScope
end LuaMachine
