import LuaMachine.Proofs.Scoping.Lexical
import Mathlib.Data.List.Perm.Subperm
/-! # Looking up names

A look-up gives what the name stands for in the scopes of functions inside of one another, whatever
came into scope and went out of it before. It fails only if a function on the way to the variable
has as many upvalues as a function can have.

* `Lexical.resolve_resolves`: a look-up in scopes whose upvalues are taken from where they should.
* `Lexical.Chain.sourced`: all scopes that can come about are of this kind.
* `Lexical.resolve_meaning`: what a look-up gives.
* `Lexical.not_always_resolved`: it can fail.
-/
set_option autoImplicit false

namespace LuaMachine
namespace Lexical

variable {scopes scopes' outer outer' : List FunctionScope} {s s' t t' : FunctionScope}
  {f g : Blocks} {env : List Blocks} {name : String} {line : Nat}

/-! ## Looking up -/

/-- The name is that of a variable of these functions, or `_ENV`. -/
def Known (name : String) (env : List Blocks) : Prop := nearest? name env ≠ none ∨ name = "_ENV"

/-- What a look-up among the upvalues of `s` comes to. -/
inductive Finds (name : String) (line : Nat) (s : FunctionScope) (outer : List FunctionScope)
    (f : Blocks) (env : List Blocks) : Lookup (Option (Nat × Bool)) → Prop
  | nothing (unknown : ¬ Known name env) : Finds name line s outer f env (s :: outer, .ok none)
  | crowded {outer' : List FunctionScope} (known : Known name env)
      (crowded : Crowded name (s :: outer)) (sourced : Sourced (s :: outer') (f :: env))
      (gains : List.Forall₂ Gains outer outer') :
      Finds name line s outer f env (s :: outer', .error (.at "too many upvalues" line))
  | upvalue {s' : FunctionScope} {outer' : List FunctionScope} {i : Nat} (known : Known name env)
      (room : ¬ Crowded name (s :: outer)) (sourced : Sourced (s' :: outer') (f :: env))
      (gains : List.Forall₂ Gains (s :: outer) (s' :: outer'))
      (found : s'.findUpvalue name = some i) :
      Finds name line s outer f env
        (s' :: outer', .ok (some (i, s'.constantUpvalues.getD i false)))

theorem Finds.eq_of_unknown {result : Lookup (Option (Nat × Bool))}
    (h : Finds name line s outer f env result) (hunknown : ¬ Known name env) :
    result = (s :: outer, .ok none) := by
  cases h with
  | nothing => rfl
  | crowded known => exact absurd known hunknown
  | upvalue known => exact absurd known hunknown

theorem Sourced.known (h : Sourced (s :: outer) (f :: env)) {i : Nat}
    (hi : s.findUpvalue name = some i) : Known name env := by
  obtain ⟨u, hu, rfl⟩ := FunctionScope.exists_of_findUpvalue hi
  have horigin := h.origin hu
  cases hnearest : nearest? u.name env with
  | some x => exact .inl (by simp [hnearest])
  | none =>
    rw [hnearest] at horigin
    exact .inr horigin.1

theorem known_cons_iff (h : find? g name = none) : Known name (g :: env) ↔ Known name env := by
  simp [Known, nearest?, h]

/-- An upvalue that is taken from the function around is added, if there is room for it. -/
theorem Finds.added (source : UpvalueSource) {constant : Bool}
    (h : Sourced (s :: t :: outer) (f :: g :: env)) (hnone : s.findUpvalue source.name = none)
    (ht' : Sourced (t' :: outer') (g :: env)) (hsource : Source t' g source constant)
    (hgains : List.Forall₂ Gains (t :: outer) (t' :: outer'))
    (hknown : Known source.name (g :: env))
    (hroom : t.findLocal source.name = none → ¬ Crowded source.name (t :: outer)) :
    Finds source.name line s (t :: outer) f (g :: env)
      (s.addedUpvalue (t' :: outer') source constant line) := by
  have hsourced : Sourced (s :: t' :: outer') (f :: g :: env) := by
    cases hgains with
    | cons hg _ => exact h.around ht' hg
  rw [addedUpvalue_eq]
  split
  next hfull => exact .crowded hknown ⟨hnone, .inl hfull⟩ hsourced hgains
  next hfull =>
    have hnew := hsourced.added hnone hsource (Nat.lt_of_not_le hfull)
    have hmark : (withUpvalue s source constant).constantUpvalues.getD s.proto.upvalues.size false =
        constant := by
      show (s.constantUpvalues.push constant).getD s.proto.upvalues.size false = constant
      rw [← h.size]
      simp
    have hspare : ¬ Crowded source.name (s :: t :: outer) := by
      rintro ⟨-, hover | ⟨hlocal, hcrowded⟩⟩
      · exact hfull hover
      · exact hroom hlocal hcrowded
    have hfinds : Finds source.name line s (t :: outer) f (g :: env) _ :=
      .upvalue hknown hspare hnew (.cons (gains_withUpvalue s source constant) hgains)
        (findUpvalue_withUpvalue hnone)
    rw [hmark] at hfinds
    exact hfinds

/-- The induction is on the functions around, which are asked for what they have not got. -/
theorem resolveUpvalue_finds (h : Sourced (s :: outer) (f :: env))
    (hstands : List.Forall₂ Stands outer env)
    (hrecorded : ∀ depth v, nearest? name env = some (depth, v) → v.captured = true) (line : Nat) :
    Finds name line s outer f env (FunctionScope.resolveUpvalue name line (s :: outer)) := by
  induction hstands generalizing s f with
  | nil =>
    rw [FunctionScope.resolveUpvalue]
    cases hfind : s.findUpvalue name with
    | some i => exact .upvalue (h.known hfind) id h (gains_refl _) hfind
    | none =>
      refine .nothing ?_
      rintro (hknown | rfl)
      · exact hknown rfl
      · cases h with
        | main upvalues =>
          simp [FunctionScope.findUpvalue, upvalues] at hfind
  | @cons t g outer env ht hstands ih =>
    have hout : Sourced (t :: outer) (g :: env) := by
      cases h with
      | nested _ _ _ _ around => exact around
    rw [FunctionScope.resolveUpvalue]
    cases hfind : s.findUpvalue name with
    | some i =>
      refine .upvalue (h.known hfind) (fun hcrowded => ?_) h (gains_refl _) hfind
      rw [hcrowded.1] at hfind
      cases hfind
    | none =>
      have hlocal := ht.findLocal name
      simp only [List.head?_cons, Option.bind_some]
      cases hfound : t.findLocal name with
      | some l =>
        rw [hfound] at hlocal
        have hcaptured : l.captured = true :=
          hrecorded 0 (variableOf l) (by rw [nearest?, ← hlocal]; rfl)
        simp only [hcaptured, if_true]
        refine Finds.added ⟨name, true, l.register⟩ h hfind hout ?_ (gains_refl _) ?_ ?_
        · simp only [Source, ← hlocal, Option.map_some]
          exact ⟨trivial, rfl, rfl⟩
        · exact .inl (by simp [nearest?, ← hlocal])
        · intro hnone
          rw [hfound] at hnone
          cases hnone
      | none =>
        have hg : find? g name = none := ht.findLocal_eq_none_iff.mp hfound
        have hrest := ih hout fun depth v hv =>
          hrecorded (depth + 1) v (by simp [nearest?, hg, hv])
        generalize FunctionScope.resolveUpvalue name line (t :: outer) = result at hrest
        cases hrest with
        | nothing unknown => exact .nothing fun hknown => unknown ((known_cons_iff hg).mp hknown)
        | crowded known crowded sourced gains =>
          refine .crowded ((known_cons_iff hg).mpr known) ⟨hfind, .inr ⟨hfound, crowded⟩⟩ ?_
            (.cons (.refl t) gains)
          exact h.around sourced (.refl t)
        | @upvalue t' outer' i known room sourced gains found =>
          obtain ⟨u, hu, hname⟩ := FunctionScope.exists_of_findUpvalue found
          refine Finds.added ⟨name, false, i⟩ h hfind sourced ?_ gains
            ((known_cons_iff hg).mpr known) fun _ => room
          simp only [Source, hg]
          exact ⟨trivial, u, hu, hname, trivial⟩

/-- What a look-up comes to. -/
inductive Resolves (name : String) (line : Nat) (scopes : List FunctionScope) (env : List Blocks) :
    Lookup Reference → Prop
  | crowded {scopes' : List FunctionScope} (outside : (meaning name env).isOuter = true)
      (crowded : Crowded name scopes) (sourced : Sourced scopes' env)
      (gains : List.Forall₂ Gains scopes scopes') :
      Resolves name line scopes env (scopes', .error (.at "too many upvalues" line))
  | found {scopes' : List FunctionScope} {r : Reference}
      (room : ¬ ((meaning name env).isOuter = true ∧ Crowded name scopes))
      (sourced : Sourced scopes' env) (gains : List.Forall₂ Gains scopes scopes')
      (answers : Answers scopes' (meaning name env) r)
      (again : ∀ line', FunctionScope.resolve name line' scopes' = (scopes', .ok r)) :
      Resolves name line scopes env (scopes', .ok r)

theorem resolve_of_findLocal_none (h : s.findLocal name = none) :
    FunctionScope.resolve name line (s :: outer) =
      match FunctionScope.resolveUpvalue name line (s :: outer) with
      | (scopes, .ok (some (i, constant))) => (scopes, .ok (.upvalue i constant))
      | (scopes, .ok none) => (scopes, .ok .global)
      | (scopes, .error e) => (scopes, .error e) := by
  simp only [FunctionScope.resolve, List.head?_cons, Option.bind_some, h] <;> rfl

theorem meaning_of_find?_none (h : find? f name = none) :
    meaning name (f :: env) =
      match nearest? name env with
      | some (depth, v) => .outer (depth + 1) v
      | none => if name = "_ENV" then .environment else .global := by
  simp only [meaning, h] <;> rfl

theorem Known.isOuter (h : Known name env) (hf : find? f name = none) :
    (meaning name (f :: env)).isOuter = true := by
  rw [meaning_of_find?_none hf]
  cases hnearest : nearest? name env with
  | some x => rfl
  | none =>
    rcases h with hknown | rfl
    · exact absurd hnearest hknown
    · rfl

theorem meaning_of_unknown (h : ¬ Known name env) (hf : find? f name = none) :
    meaning name (f :: env) = .global := by
  rw [meaning_of_find?_none hf]
  cases hnearest : nearest? name env with
  | some x => exact absurd (.inl (by simp [hnearest])) h
  | none => exact if_neg fun hname => h (.inr hname)

/-- The upvalue of a name stands for what the name stands for. -/
theorem Sourced.answers (h : Sourced (s :: outer) (f :: env)) (hf : find? f name = none) {i : Nat}
    (hi : s.findUpvalue name = some i) :
    Answers (s :: outer) (meaning name (f :: env))
      (.upvalue i (s.constantUpvalues.getD i false)) := by
  obtain ⟨u, hu, rfl⟩ := FunctionScope.exists_of_findUpvalue hi
  have horigin := h.origin hu
  rw [meaning_of_find?_none hf]
  cases hnearest : nearest? u.name env with
  | some x =>
    rw [hnearest] at horigin
    exact ⟨i, congrArg _ horigin.2, horigin.1⟩
  | none =>
    rw [hnearest] at horigin
    simp only [if_pos horigin.1]
    exact ⟨i, congrArg _ horigin.2.2, horigin.2.1⟩

theorem resolve_resolves (h : Sourced scopes env) (hstands : List.Forall₂ Stands scopes env)
    (hrecorded : Recorded env name) (line : Nat) :
    Resolves name line scopes env (FunctionScope.resolve name line scopes) := by
  cases hstands with
  | nil => cases h
  | @cons s f outer env hs hstands =>
    have hlocal := hs.findLocal name
    cases hfound : s.findLocal name with
    | some l =>
      rw [hfound] at hlocal
      have hmeaning : meaning name (f :: env) = .own (variableOf l) := by
        rw [meaning, ← hlocal]
        rfl
      have hresolve : ∀ line', FunctionScope.resolve name line' (s :: outer) =
          (s :: outer, .ok (.register l.register l.constant)) := by
        intro line'
        simp [FunctionScope.resolve, hfound]
      rw [hresolve]
      refine .found ?_ h (gains_refl _) ?_ hresolve
      · rw [hmeaning]
        exact fun hcrowded => Bool.noConfusion hcrowded.1
      · rw [hmeaning]
        rfl
    | none =>
      have hf : find? f name = none := hs.findLocal_eq_none_iff.mp hfound
      have hfinds : ∀ line', Finds name line' s outer f env
          (FunctionScope.resolveUpvalue name line' (s :: outer)) := by
        intro line'
        refine resolveUpvalue_finds h hstands (fun depth v hv => hrecorded (depth + 1) v ?_) line'
        simp [meaning, hf, hv]
      rw [resolve_of_findLocal_none hfound]
      have hresult := hfinds line
      generalize FunctionScope.resolveUpvalue name line (s :: outer) = result at hresult
      cases hresult with
      | nothing unknown =>
        have hmeaning := meaning_of_unknown unknown hf
        refine .found ?_ h (gains_refl _) ?_ fun line' => ?_
        · rw [hmeaning]
          exact fun hcrowded => Bool.noConfusion hcrowded.1
        · rw [hmeaning]
          rfl
        · rw [resolve_of_findLocal_none hfound, (hfinds line').eq_of_unknown unknown]
      | crowded known crowded sourced gains =>
        exact .crowded (known.isOuter hf) crowded sourced (.cons (.refl s) gains)
      | @upvalue s' outer' i known room sourced gains found =>
        have hlocal' : s'.findLocal name = none := by
          cases gains with
          | cons hs' _ => exact (hs.gains hs').findLocal_eq_none_iff.mpr hf
        refine .found (fun hcrowded => room hcrowded.2) sourced gains (sourced.answers hf found)
          fun line' => ?_
        rw [resolve_of_findLocal_none hlocal', FunctionScope.resolveUpvalue]
        simp only [found]

/-! ## All scopes that can come about -/

/-- Variables and blocks of the innermost function do not matter for its upvalues. -/
theorem Sourced.head {f' : Blocks} (h : Sourced (s :: outer) (f :: env))
    (hupvalues : s'.proto.upvalues = s.proto.upvalues)
    (hconstants : s'.constantUpvalues = s.constantUpvalues) :
    Sourced (s' :: outer) (f' :: env) := by
  cases h with
  | main upvalues constants => exact .main (hupvalues.trans upvalues) (hconstants.trans constants)
  | nested names size limit sources around =>
    refine .nested ?_ ?_ ?_ ?_ around
    · rw [hupvalues]
      exact names
    · rw [hupvalues, hconstants]
      exact size
    · rw [hupvalues]
      exact limit
    · rw [hupvalues, hconstants]
      exact sources

theorem Resolves.sourced {result : Lookup Reference} (h : Resolves name line scopes env result) :
    Sourced result.1 env ∧ List.Forall₂ Gains scopes result.1 := by
  cases h with
  | crowded _ _ sourced gains => exact ⟨sourced, gains⟩
  | found _ sourced gains => exact ⟨sourced, gains⟩

theorem endBlock_upvalues (s : FunctionScope) :
    s.endBlock.1.proto.upvalues = s.proto.upvalues ∧
      s.endBlock.1.constantUpvalues = s.constantUpvalues := by
  unfold FunctionScope.endBlock
  split <;> exact ⟨rfl, rfl⟩

theorem addLocal_upvalues {captured constant : Bool}
    (h : s.addLocal name captured constant = .ok s') :
    s'.proto.upvalues = s.proto.upvalues ∧ s'.constantUpvalues = s.constantUpvalues := by
  simp only [FunctionScope.addLocal] at h
  split at h
  · cases h
  · cases h
    exact ⟨rfl, rfl⟩

/-- In all scopes that can come about, upvalues are taken from where their names say. -/
theorem Chain.sourced (h : Chain scopes env) :
    Sourced scopes env ∧ List.Forall₂ Stands scopes env := by
  induction h with
  | @main proto h =>
    refine ⟨.main h ?_, .cons (stands_create proto) .nil⟩
    show Array.replicate proto.upvalues.size false = _
    rw [h]
    rfl
  | enter _ proto h ih =>
    refine ⟨?_, .cons (stands_create proto) ih.2⟩
    have hnone : ∀ (i : Nat) (u : UpvalueSource), proto.upvalues[i]? ≠ some u := by simp [h]
    obtain ⟨hsourced, hstands⟩ := ih
    cases hstands with
    | nil => cases hsourced
    | cons =>
      refine .nested ?_ ?_ ?_ (fun i u hu => absurd hu (hnone i u)) hsourced
      · simp [FunctionScope.create, h]
      · simp [FunctionScope.create]
      · simp [FunctionScope.create, h]
  | leave _ ih =>
    obtain ⟨hsourced, hstands⟩ := ih
    cases hstands with
    | cons _ hrest =>
      cases hsourced with
      | nested _ _ _ _ around => exact ⟨around, hrest⟩
  | beginBlock _ isLoop ih =>
    obtain ⟨hsourced, hstands⟩ := ih
    cases hstands with
    | cons hs hrest => exact ⟨hsourced.head rfl rfl, .cons (hs.beginBlock isLoop) hrest⟩
  | @endBlock s _ _ _ _ _ _ ih =>
    obtain ⟨hsourced, hstands⟩ := ih
    obtain ⟨hupvalues, hconstants⟩ := endBlock_upvalues s
    cases hstands with
    | cons hs hrest => exact ⟨hsourced.head hupvalues hconstants, .cons hs.endBlock hrest⟩
  | addLocal _ h ih =>
    obtain ⟨hsourced, hstands⟩ := ih
    obtain ⟨hupvalues, hconstants⟩ := addLocal_upvalues h
    cases hstands with
    | cons hs hrest => exact ⟨hsourced.head hupvalues hconstants, .cons (hs.addLocal h) hrest⟩
  | resolve _ line h ih =>
    obtain ⟨hsourced, hgains⟩ := (resolve_resolves ih.1 ih.2 h line).sourced
    exact ⟨hsourced, stands_gains hgains ih.2⟩
  | other _ h ih =>
    obtain ⟨hsourced, hstands⟩ := ih
    cases hstands with
    | cons hs hrest => exact ⟨hsourced.head h.upvalues h.constants, .cons (hs.same h) hrest⟩

theorem Sourced.all_names (h : Sourced scopes env) :
    ∀ s ∈ scopes, (s.proto.upvalues.toList.map UpvalueSource.name).Nodup := by
  induction h with
  | main upvalues => simp [upvalues]
  | nested names _ _ _ _ ih => exact List.forall_mem_cons.mpr ⟨names, ih⟩

/-- A look-up finds what the name stands for, unless it is a variable of an outer function or `_ENV`
and a function on the way has no room for a further upvalue. It finds the same when it is done
again, without further upvalues, and no function has two upvalues of a name. -/
theorem resolve_meaning (h : Chain scopes env) (hrecorded : Recorded env name) (line : Nat) :
    (∀ s ∈ scopes, (s.proto.upvalues.toList.map UpvalueSource.name).Nodup) ∧
    ((meaning name env).isOuter = true ∧ Crowded name scopes →
      (FunctionScope.resolve name line scopes).2 = .error (.at "too many upvalues" line)) ∧
    (¬ ((meaning name env).isOuter = true ∧ Crowded name scopes) →
      ∃ scopes' r, FunctionScope.resolve name line scopes = (scopes', .ok r) ∧
        Answers scopes' (meaning name env) r ∧
        ∀ line', FunctionScope.resolve name line' scopes' = (scopes', .ok r)) := by
  obtain ⟨hsourced, hstands⟩ := h.sourced
  have hresolves := resolve_resolves hsourced hstands hrecorded line
  refine ⟨hsourced.all_names, fun hcrowded => ?_, fun hroom => ?_⟩
  · generalize FunctionScope.resolve name line scopes = result at hresolves
    cases hresolves with
    | crowded => rfl
    | found room => exact absurd hcrowded room
  · generalize FunctionScope.resolve name line scopes = result at hresolves
    cases hresolves with
    | crowded outside crowded => exact absurd ⟨outside, crowded⟩ hroom
    | @found scopes' r _ _ _ answers again => exact ⟨scopes', r, rfl, answers, again⟩

/-! ## Chains with many variables -/

/-- A main program without instructions. -/
def mainProgram : Prototype := { (default : Prototype) with upvalues := #[⟨"_ENV", false, 0⟩] }

/-- The variables of these names, all captured, in a function without blocks. -/
def declared (names : List String) (b : List Variable) : List Variable :=
  names.foldl (fun b name => ⟨name, b.length, true, true⟩ :: b) b

theorem mem_declared (names : List String) (b : List Variable) :
    (∀ v ∈ b, v ∈ declared names b) ∧ ∀ name ∈ names, ∃ v ∈ declared names b, v.name = name := by
  induction names generalizing b with
  | nil => exact ⟨fun v hv => hv, by simp⟩
  | cons name rest ih =>
    obtain ⟨hold, hnew⟩ := ih (⟨name, b.length, true, true⟩ :: b)
    refine ⟨fun v hv => hold v (List.mem_cons_of_mem _ hv), List.forall_mem_cons.mpr ⟨?_, hnew⟩⟩
    exact ⟨_, hold _ List.mem_cons_self, rfl⟩

theorem captured_of_mem_declared (names : List String) {b : List Variable}
    (hb : ∀ v ∈ b, v.captured = true) : ∀ v ∈ declared names b, v.captured = true := by
  induction names generalizing b with
  | nil => exact hb
  | cons name rest ih => exact ih (List.forall_mem_cons.mpr ⟨rfl, hb⟩)

theorem find?_declared {names : List String} (h : name ∈ names) :
    ∃ v, find? [declared names []] name = some v ∧ v.captured = true := by
  obtain ⟨w, hw, hname⟩ := (mem_declared names []).2 name h
  cases hfind : find? [declared names []] name with
  | none => simpa [hname] using List.find?_eq_none.mp hfind w (by simpa using hw)
  | some v =>
    refine ⟨v, rfl, captured_of_mem_declared names (List.forall_mem_nil _) v ?_⟩
    simpa using List.mem_of_find?_eq_some hfind

theorem Chain.declares {b : List Variable} (names : List String)
    (h : Chain (s :: outer) ([b] :: env)) (hfree : s.locals.size + names.length ≤ s.free) :
    ∃ s', Chain (s' :: outer) ([declared names b] :: env) ∧ s'.proto = s.proto := by
  induction names generalizing s b with
  | nil => exact ⟨s, h, rfl⟩
  | cons name rest ih =>
    have hroom : ¬ s.free ≤ (s.localsLevel : Nat) := by
      simp only [FunctionScope.localsLevel, List.length_cons] at hfree ⊢
      omega
    have hadd : s.addLocal name true true = .ok _ := if_neg hroom
    have hchain := Chain.addLocal h hadd
    simp only [List.flatten_cons, List.flatten_nil, List.append_nil] at hchain
    obtain ⟨s', hs', hproto⟩ := ih hchain (by
      simp only [Array.size_push, List.length_cons] at hfree ⊢
      omega)
    exact ⟨s', hs', hproto⟩

/-- The variables of a function that was just entered. -/
theorem Chain.declares_first {proto : Prototype} (names : List String)
    (h : Chain (.create proto :: outer) ([[]] :: env))
    (hlength : names.length ≤ FunctionScope.maxRegisters) :
    ∃ s, Chain (s :: outer) ([declared names []] :: env) ∧
      s.proto.upvalues = proto.upvalues := by
  have hreserve : ∃ s, (FunctionScope.create proto).reserve names.length 0 = .ok (s, 0) ∧
      s.locals = #[] ∧ s.free = names.length ∧ s.proto.upvalues = proto.upvalues ∧
      SameNames (.create proto) s := by
    unfold FunctionScope.reserve FunctionScope.ensureRegisters
    rw [if_neg (by simp only [FunctionScope.create]; omega)]
    split
    next hensure =>
      split at hensure
      · cases hensure
        exact ⟨_, rfl, rfl, by simp [FunctionScope.create], rfl, rfl, rfl, rfl, rfl⟩
      · cases hensure
        exact ⟨_, rfl, rfl, by simp [FunctionScope.create], rfl, rfl, rfl, rfl, rfl⟩
    next hensure =>
      split at hensure <;> cases hensure
  obtain ⟨s, -, hlocals, hfree, hupvalues, hsame⟩ := hreserve
  obtain ⟨s', hs', hproto⟩ := (h.other hsame).declares names (by simp [hlocals, hfree])
  exact ⟨s', hs', by rw [hproto, hupvalues]⟩

/-- Of two variables of the main program, a function inside of another one finds the later one. -/
theorem resolve_meaning_relayed :
    ∃ scopes env, Chain scopes env ∧ Recorded env "a" ∧
      ¬ ((meaning "a" env).isOuter = true ∧ Crowded "a" scopes) ∧
      ∃ scopes' r, FunctionScope.resolve "a" 1 scopes = (scopes', .ok r) ∧
        Answers scopes' (.outer 2 ⟨"a", 1, true, true⟩) r := by
  have hmain : Chain [.create mainProgram] [[[]]] := .main rfl
  obtain ⟨s, hs, -⟩ := hmain.declares_first ["a", "a"] (by decide)
  have hchain := (hs.enter default rfl).enter default rfl
  have hrecorded : Recorded [[[]], [[]], [declared ["a", "a"] []]] "a" := by
    rintro depth v hv
    cases hv
    rfl
  have hspare : ¬ ((meaning "a" [[[]], [[]], [declared ["a", "a"] []]]).isOuter = true ∧
      Crowded "a" [.create default, .create default, s]) := by
    rintro ⟨-, -, hfull | ⟨-, -, hfull | ⟨-, hnone⟩⟩⟩
    · exact absurd hfull (by decide)
    · exact absurd hfull (by decide)
    · exact hnone
  obtain ⟨scopes', r, hresolve, hanswers, -⟩ := (resolve_meaning hchain hrecorded 1).2.2 hspare
  exact ⟨_, _, hchain, hrecorded, hspare, scopes', r, hresolve, hanswers⟩

/-! ## Where upvalues run out -/

theorem Gains.mem_names (h : Gains s s')
    (hname : name ∈ s.proto.upvalues.toList.map UpvalueSource.name) :
    name ∈ s'.proto.upvalues.toList.map UpvalueSource.name := by
  obtain ⟨us, cs, rfl⟩ := h
  simp only [Array.toList_append, List.map_append, List.mem_append]
  exact .inl hname

/-- If no look-up failed, a function could have upvalues of any number of names. -/
theorem Chain.gathers
    (hall : ∀ scopes env name line, Chain scopes env → Recorded env name →
      ∃ scopes' r, FunctionScope.resolve name line scopes = (scopes', .ok r))
    (h : Chain (s :: outer) ([[]] :: env)) (names : List String)
    (hnames : ∀ name ∈ names, ∃ depth v, nearest? name env = some (depth, v) ∧ v.captured = true) :
    ∃ s' outer', Chain (s' :: outer') ([[]] :: env) ∧
      ∀ name ∈ names, name ∈ s'.proto.upvalues.toList.map UpvalueSource.name := by
  induction names with
  | nil => exact ⟨s, outer, h, by simp⟩
  | cons name rest ih =>
    obtain ⟨hname, hrest⟩ := List.forall_mem_cons.mp hnames
    obtain ⟨s', outer', hchain, hgathered⟩ := ih hrest
    obtain ⟨depth, v, hnearest, hcaptured⟩ := hname
    have hrecorded : Recorded ([[]] :: env) name := by
      intro depth' v' hv'
      rw [meaning_of_find?_none rfl, hnearest] at hv'
      cases hv'
      exact hcaptured
    have hnext := hchain.resolve 0 hrecorded
    obtain ⟨scopes', r, hresolve⟩ := hall _ _ name 0 hchain hrecorded
    obtain ⟨hsourced, hstands⟩ := hchain.sourced
    cases hstands with
    | cons hs hrest =>
      have hmarked : ∀ depth' v', nearest? name env = some (depth', v') → v'.captured = true := by
        intro depth' v' hv'
        rw [hnearest] at hv'
        cases hv'
        exact hcaptured
      have hfinds := resolveUpvalue_finds hsourced hrest hmarked 0
      rw [resolve_of_findLocal_none (hs.findLocal_eq_none_iff.mpr rfl)] at hnext hresolve
      generalize FunctionScope.resolveUpvalue name 0 (s' :: outer') = result
        at hfinds hnext hresolve
      cases hfinds with
      | nothing unknown => exact absurd (.inl (by simp [hnearest])) unknown
      | crowded => cases hresolve
      | @upvalue s'' outer'' i _ _ _ gains found =>
        refine ⟨s'', outer'', hnext, List.forall_mem_cons.mpr ⟨?_, fun other hother => ?_⟩⟩
        · obtain ⟨u, hu, rfl⟩ := FunctionScope.exists_of_findUpvalue found
          exact List.mem_map_of_mem (Array.mem_toList_iff.mpr (Array.mem_of_getElem? hu))
        · cases gains with
          | cons hgains _ => exact hgains.mem_names (hgathered other hother)

/-- Names of variables, as many as wanted. -/
def letters (start count : Nat) : List String :=
  (List.range' start count).map fun i => String.ofList (List.replicate i 'x')

theorem nodup_letters (start count : Nat) : (letters start count).Nodup := by
  refine List.Nodup.map (fun i j hij => ?_) List.nodup_range'
  have hlists := String.ofList_injective hij
  simpa using congrArg List.length hlists

/-- A function that uses 256 captured variables of the functions around it is one too many. -/
theorem not_always_resolved :
    ¬ ∀ scopes env name line, Chain scopes env → Recorded env name →
      ∃ scopes' r, FunctionScope.resolve name line scopes = (scopes', .ok r) := by
  intro hall
  have hmain : Chain [.create mainProgram] [[[]]] := .main rfl
  obtain ⟨s, hs, -⟩ := hmain.declares_first (letters 0 128)
    (by simp [letters, FunctionScope.maxRegisters])
  obtain ⟨t, ht, -⟩ := (hs.enter default rfl).declares_first (letters 128 128)
    (by simp [letters, FunctionScope.maxRegisters])
  have hnames : ∀ name ∈ letters 0 128 ++ letters 128 128, ∃ depth v,
      nearest? name [[declared (letters 128 128) []], [declared (letters 0 128) []]] =
        some (depth, v) ∧ v.captured = true := by
    intro name hname
    rw [nearest?]
    cases hfind : find? [declared (letters 128 128) []] name with
    | some v =>
      refine ⟨0, v, rfl, captured_of_mem_declared (letters 128 128) (List.forall_mem_nil _) v ?_⟩
      simpa using List.mem_of_find?_eq_some hfind
    | none =>
      have hfirst : name ∈ letters 0 128 := by
        refine (List.mem_append.mp hname).resolve_right fun hsecond => ?_
        obtain ⟨v, hv, -⟩ := find?_declared hsecond
        rw [hfind] at hv
        cases hv
      obtain ⟨v, hv, hcaptured⟩ := find?_declared hfirst
      exact ⟨1, v, by simp [nearest?, hv], hcaptured⟩
  obtain ⟨s', outer', hchain, hgathered⟩ := (ht.enter default rfl).gathers hall _ hnames
  have hnodup : (letters 0 128 ++ letters 128 128).Nodup := by
    have hall := nodup_letters 0 256
    rwa [letters, show (256 : Nat) = 128 + 128 from rfl, ← List.range'_append_1, List.map_append]
      at hall
  have hle := (List.Nodup.subperm hnodup hgathered).length_le
  have hlimit := hchain.sourced.1.limit
  simp only [letters, List.length_append, List.length_map, List.length_range',
    Array.length_toList] at hle
  exact absurd (Nat.le_trans hle hlimit) (by decide)

end Lexical
end LuaMachine
