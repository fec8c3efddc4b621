import LuaMachine.Proofs.Scoping.Flawless
/-! # Scopes and what is in scope

While the compiler stands at a place of a program, its scopes hold the variables that are in scope
there, each marked if an inner function uses it. So a name finds the variable that the language says
it stands for, and the look-up meets no variable that should have been marked.

* `FunctionScope.Holds`, `Generator.Tracks`: the correspondence of scopes and surroundings.
* `Generator.resolve_flawless`, `Generator.resolve_global`: names, and what is a global.
* `Generator.At`: a sound state at a place, and how it moves on to the next one.
-/
set_option autoImplicit false

namespace LuaMachine

/-! ## Variables of a scope -/

namespace FunctionScope

variable {captured : Std.HashSet Nat} {s s' : FunctionScope} {slots : List Slot} {name : String}

/-- The variables of a scope are these, of which the first is the one declared last. -/
def Holds (captured : Std.HashSet Nat) (s : FunctionScope) (slots : List Slot) : Prop :=
  s.locals.toList.reverse.map (fun l => (l.name, l.captured)) =
    slots.map fun x => (x.name, x.isCaptured captured)

theorem Holds.of_locals (h : s.Holds captured slots) (hl : s'.locals = s.locals) :
    s'.Holds captured slots := by
  unfold Holds
  rw [hl]
  exact h

/-- A name finds the variable that it stands for. -/
theorem Holds.findLocal (h : s.Holds captured slots) (name : String) :
    (s.findLocal name).map Local.captured =
      (Slot.find? slots name).map (Slot.isCaptured captured) := by
  have hfind := congrArg (fun l => (l.find? fun x => x.1 == name).map Prod.snd) h
  simp only [List.find?_map, Option.map_map, Function.comp_def] at hfind
  unfold FunctionScope.findLocal Slot.find?
  rw [Array.findRev?_eq_find?_reverse, ← Array.find?_toList, Array.toList_reverse]
  exact hfind

theorem Holds.findLocal_eq_none_iff (h : s.Holds captured slots) :
    s.findLocal name = none ↔ Slot.find? slots name = none := by
  rw [← Option.map_eq_none_iff (f := Local.captured), h.findLocal, Option.map_eq_none_iff]

/-- The variable in a register is the one declared in its turn. -/
theorem Holds.slot {l : Local} {n : Nat} (h : s.Holds captured slots)
    (hl : s.locals[n]? = some l) :
    ∃ x, slots.reverse[n]? = some x ∧ x.name = l.name ∧ x.isCaptured captured = l.captured := by
  have hmap := congrArg (fun l => l.reverse[n]?) h
  simp only [← List.map_reverse, List.reverse_reverse, List.getElem?_map, Array.getElem?_toList,
    hl, Option.map_some] at hmap
  obtain ⟨x, hx, heq⟩ := Option.map_eq_some_iff.mp hmap.symm
  exact ⟨x, hx, congrArg Prod.fst heq, congrArg Prod.snd heq⟩

/-! ## Looking up -/

section LookUp

variable {line : Nat} {outer scopes' : List FunctionScope} {frames : List (List Slot)}

theorem addedUpvalue_safe {source : UpvalueSource} {constant : Bool} (why : String) :
    (s.addedUpvalue outer source constant line).2 ≠ .error (.defect why) := by
  unfold addedUpvalue addUpvalue
  split
  · simp
  next e h =>
    split at h
    · cases h
      simp [CompileFault.at]
    · cases h

/-- The variable that a name stands for in outer functions. -/
theorem find?_flatten_cons (first : List Slot) (rest : List (List Slot)) (name : String) :
    Slot.find? (first :: rest).flatten name =
      (Slot.find? first name).or (Slot.find? rest.flatten name) := by
  simp [Slot.find?]

/-- The induction is on the functions around: a name that is no variable of the next one is looked
up from there. -/
theorem resolveUpvalue_safe (hframes : List.Forall₂ (Holds captured) outer frames)
    (hrecorded : ∀ x, Slot.find? frames.flatten name = some x → x.isCaptured captured = true)
    (why : String) : (resolveUpvalue name line (s :: outer)).2 ≠ .error (.defect why) := by
  induction hframes generalizing s with
  | nil =>
    rw [resolveUpvalue]
    split
    · simp
    · simp [resolveUpvalue]
  | @cons t slots outer frames ht hframes ih =>
    rw [find?_flatten_cons] at hrecorded
    have hlocal := ht.findLocal name
    rw [resolveUpvalue]
    split
    · simp
    simp only [List.head?_cons, Option.bind_some]
    cases hfound : t.findLocal name with
    | some l =>
      rw [hfound] at hlocal
      obtain ⟨x, hx, hcaptured⟩ := Option.map_eq_some_iff.mp hlocal.symm
      rw [hx] at hrecorded
      have hl : l.captured = true := hcaptured.symm.trans (hrecorded x rfl)
      simp only [hl, if_true]
      exact addedUpvalue_safe why
    | none =>
      rw [ht.findLocal_eq_none_iff.mp hfound, Option.none_or] at hrecorded
      have hrest := ih hrecorded (s := t)
      simp only
      split
      · exact addedUpvalue_safe why
      · simp
      next e h =>
        rw [h] at hrest
        simpa using hrest

/-- What no scope has among its variables or upvalues is a global. -/
theorem resolveUpvalue_none (hframes : List.Forall₂ (Holds captured) outer frames)
    (h : resolveUpvalue name line (s :: outer) = (scopes', .ok none)) :
    Slot.find? frames.flatten name = none ∧ ∀ t ∈ s :: outer, t.findUpvalue name = none := by
  induction hframes generalizing s scopes' with
  | nil =>
    rw [resolveUpvalue] at h
    split at h
    · simp at h
    next hup => simpa [Slot.find?] using hup
  | @cons t slots outer frames ht hframes ih =>
    rw [resolveUpvalue] at h
    split at h
    · simp at h
    next hup =>
    simp only [List.head?_cons, Option.bind_some] at h
    cases hfound : t.findLocal name with
    | some l =>
      simp only [hfound] at h
      split at h
      · unfold addedUpvalue at h
        split at h <;> simp at h
      · simp at h
    | none =>
      simp only [hfound] at h
      split at h
      · unfold addedUpvalue at h
        split at h <;> simp at h
      next hrest =>
        obtain ⟨hfind, hscopes⟩ := ih hrest
        rw [find?_flatten_cons, ht.findLocal_eq_none_iff.mp hfound, Option.none_or]
        exact ⟨hfind, List.forall_mem_cons.mpr ⟨hup, hscopes⟩⟩
      · simp at h

end LookUp

end FunctionScope

/-! ## States at a place -/

namespace Generator

/-- The scopes are those of a place of the program. In the main program `_ENV` is an upvalue. -/
structure Tracks (captured : Std.HashSet Nat) (env : Surroundings) (st : State) : Prop where
  marks : st.captured = captured
  own : st.current.Holds captured env.own
  outer : List.Forall₂ (FunctionScope.Holds captured) st.outer env.outer
  given : FunctionScope.given st.scopes = some #[⟨"_ENV", false, 0⟩]
  loop : env.inLoop = true → ∃ b ∈ st.current.blocks, b.isLoop = true
  block : st.current.blocks ≠ []

/-- A sound state at a place of the program. -/
structure At (Good : Prototype → Prop) (captured : Std.HashSet Nat) (env : Surroundings)
    (ps : List Nat) (st : State) : Prop where
  sound : Sound Good ps st
  tracks : Tracks captured env st

variable {captured : Std.HashSet Nat} {env : Surroundings} {Good P : Prototype → Prop}
  {ps ps' : List Nat} {st st' st₀ st₁ : State} {u : Unit} {t line n : Nat} {name : String}

theorem blocks_ne_nil {bs bs' : List ScopeBlock}
    (h : List.Forall₂ (fun b b' : ScopeBlock => b'.level = b.level ∧ b'.isLoop = b.isLoop) bs bs')
    (hne : bs ≠ []) : bs' ≠ [] := by
  rintro rfl
  cases h
  exact hne rfl

theorem exists_loop {bs bs' : List ScopeBlock}
    (h : List.Forall₂ (fun b b' : ScopeBlock => b'.level = b.level ∧ b'.isLoop = b.isLoop) bs bs')
    (hloop : ∃ b ∈ bs, b.isLoop = true) : ∃ b ∈ bs', b.isLoop = true := by
  induction h with
  | nil => exact hloop
  | cons hb _ ih =>
    obtain ⟨b, hmem, hb'⟩ := hloop
    rcases List.mem_cons.mp hmem with rfl | hmem
    · exact ⟨_, List.mem_cons_self .., hb.2.trans hb'⟩
    · obtain ⟨b', hmem', hloop'⟩ := ih ⟨b, hmem, hb'⟩
      exact ⟨b', List.mem_cons_of_mem _ hmem', hloop'⟩

theorem holds_of_widens {scopes scopes' : List FunctionScope} {frames : List (List Slot)}
    (h : List.Forall₂ (FunctionScope.Holds captured) scopes frames)
    (hw : List.Forall₂ FunctionScope.Widens scopes scopes') :
    List.Forall₂ (FunctionScope.Holds captured) scopes' frames := by
  induction hw generalizing frames with
  | nil => exact h
  | cons hs _ ih =>
    cases h with
    | cons hslots hrest => exact .cons (hslots.of_locals hs.locals) (ih hrest)

/-- Everything but the variables of the innermost function stays as it was. -/
theorem Tracks.extends {slots : List Slot} (h : Tracks captured env st) (he : Extends st st')
    (hown : st'.current.Holds captured slots) : Tracks captured { env with own := slots } st' where
  marks := he.captured.trans h.marks
  own := hown
  outer := holds_of_widens h.outer he.outer
  given := he.given.trans h.given
  loop hloop := exists_loop he.current.blocks (h.loop hloop)
  block := blocks_ne_nil he.current.blocks h.block

/-- Parts of the program that declare nothing leave the compiler at the same place. -/
theorem Tracks.moves (h : Tracks captured env st) (hmove : Moves Good ps st st' t st.level) :
    Tracks captured env st' := by
  obtain ⟨more, hl⟩ := hmove.extends'.current.locals
  have hlevel := hmove.level_eq
  unfold State.level at hlevel
  rw [hl, Array.size_append] at hlevel
  have hmore : more = #[] := Array.eq_empty_of_size_eq_zero (by omega)
  rw [hmore, Array.append_empty] at hl
  exact h.extends hmove.extends' (h.own.of_locals hl)

namespace At

theorem moves (h : At Good captured env ps st) (hmove : Moves Good ps' st st' t st.level) :
    At Good captured env ps' st' := ⟨hmove.sound, h.tracks.moves hmove⟩

theorem step (h : At Good captured env ps st) (hstep : Step Good ps st st' t) :
    At Good captured env ps st' := h.moves hstep.moves

/-! ## Declarations and blocks -/

theorem addLocal {constant : Bool} (h : At Good captured env ps st) (x : Slot)
    (hok : addLocal x.name (x.isCaptured captured) constant st = .ok u st') :
    At Good captured { env with own := x :: env.own } ps st' := by
  have hmove := addLocal_moves hok h.sound
  refine ⟨hmove.sound, h.tracks.extends hmove.extends' ?_⟩
  obtain ⟨s, hadd, rfl⟩ := onScope'_ok hok
  obtain ⟨-, rfl⟩ := addLocal_ok hadd
  have hown := h.tracks.own
  rw [State.current_mapCurrent h.sound.exists_scope]
  unfold FunctionScope.Holds at hown ⊢
  simpa using hown

theorem addBinder {b : Binder} (h : At Good captured env ps st)
    (hok : addBinder b st = .ok u st') : At Good captured (env.declare [b]) ps st' := by
  simp only [Generator.addBinder, bind_ok, get_ok, and_assoc, exists_and_left, exists_eq_left,
    h.tracks.marks] at hok
  exact h.addLocal (.declared b) hok

theorem addBinders {bs : List Binder} (h : At Good captured env ps st)
    (hok : bs.forM Generator.addBinder st = .ok u st') :
    At Good captured (env.declare bs) ps st' := by
  induction bs generalizing env st with
  | nil =>
    simp only [List.forM_eq_forM, List.forM_nil, pure_ok] at hok
    obtain ⟨-, rfl⟩ := hok
    rwa [Surroundings.declare_nil]
  | cons b bs ih =>
    obtain ⟨st₁, hb, hrest⟩ := forM_ok hok
    rw [Surroundings.declare_cons]
    exact ih (h.addBinder hb) hrest

theorem addLoopState (h : At Good captured env ps st) (hok : addLoopState st = .ok u st') :
    At Good captured env.counting ps st' := by
  simp only [Generator.addLoopState, bind_ok] at hok
  obtain ⟨_, st₁, h₁, _, st₂, h₂, h₃⟩ := hok
  exact ((h.addLocal .hidden h₁).addLocal .hidden h₂).addLocal .hidden h₃

theorem beginBlock {isLoop : Bool} (h : At Good captured env ps st)
    (hok : beginBlock isLoop st = .ok u st') :
    At Good captured (if isLoop then env.loop else env) ps st' := by
  refine ⟨(beginBlock_sound hok h.sound).1, ?_⟩
  obtain rfl := beginBlock_ok hok
  have hs := h.sound.exists_scope
  have ht := h.tracks
  have hcurrent : (st.mapCurrent fun s => s.beginBlock isLoop).current =
      st.current.beginBlock isLoop := State.current_mapCurrent hs
  have howner : (st.mapCurrent fun s => s.beginBlock isLoop).current.Holds captured env.own := by
    rw [hcurrent]
    exact ht.own
  have houter : List.Forall₂ (FunctionScope.Holds captured)
      (st.mapCurrent fun s => s.beginBlock isLoop).outer env.outer := by
    rw [State.outer_mapCurrent]
    exact ht.outer
  have hgiven := (given_mapCurrent (f := fun s => s.beginBlock isLoop) hs rfl).trans ht.given
  have hblocks : (st.mapCurrent fun s => s.beginBlock isLoop).current.blocks =
      { level := st.current.localsLevel, isLoop := isLoop } :: st.current.blocks := by
    rw [hcurrent]
    rfl
  cases isLoop with
  | false =>
    refine ⟨ht.marks, howner, houter, hgiven, fun hloop => ?_, by simp [hblocks]⟩
    obtain ⟨b, hb, hb'⟩ := ht.loop hloop
    exact ⟨b, hblocks ▸ List.mem_cons_of_mem _ hb, hb'⟩
  | true =>
    exact ⟨ht.marks, howner, houter, hgiven,
      fun _ => ⟨_, hblocks ▸ List.mem_cons_self .., rfl⟩, by simp [hblocks]⟩

end At

/-! ## Names -/

/-- A look-up that nothing forgot to record. -/
theorem resolve_flawless (h : At Good captured env ps st) (hname : env.Recorded captured name) :
    Flawless P (resolve name line) st := by
  have hscopes := State.scopes_eq h.sound.exists_scope
  have hsafe : ∀ why, (FunctionScope.resolve name line st.scopes).2 ≠ .error (.defect why) := by
    intro why
    rw [hscopes, FunctionScope.resolve]
    simp only [List.head?_cons, Option.bind_some]
    cases hfound : st.current.findLocal name with
    | some l => simp
    | none =>
      have hup : (FunctionScope.resolveUpvalue name line (st.current :: st.outer)).2 ≠
          .error (.defect why) := FunctionScope.resolveUpvalue_safe h.tracks.outer
        (hname (h.tracks.own.findLocal_eq_none_iff.mp hfound)) why
      simp only
      split
      · simp
      · simp
      next e heq =>
        rw [heq] at hup
        simpa using hup
  have hget : (MonadState.get : Gen State) st = .ok st st := rfl
  rcases hr : FunctionScope.resolve name line st.scopes with ⟨scopes, e | r⟩
  · have hres : resolve name line st = .error e { st with scopes := scopes } := by
      unfold resolve
      change EStateM.bind _ _ st = _
      simp only [EStateM.bind, hget, hr]
      rfl
    rw [hr] at hsafe
    refine ⟨fun why st' h' => ?_, fun r st' h' => ?_⟩
    · cases hres.symm.trans h'
      exact hsafe why rfl
    · cases hres.symm.trans h'
  · have hres : resolve name line st = .ok r { st with scopes := scopes } := by
      unfold resolve
      change EStateM.bind _ _ st = _
      simp only [EStateM.bind, hget, hr]
      rfl
    obtain ⟨-, hw, -⟩ := FunctionScope.resolve_spec hr h.sound.nested
    exact .of_ok hres (hw.imp fun _ _ => .of_widens)

/-- A global is no variable of any function around. -/
theorem resolve_global (h : At Good captured env ps st)
    (hok : resolve name line st = .ok .global st') : env.Lacks name ∧ name ≠ "_ENV" := by
  have hscopes := State.scopes_eq h.sound.exists_scope
  simp only [resolve, bind_ok, get_ok, set_ok, and_assoc, exists_and_left, exists_eq_left,
    exists_const] at hok
  rcases hr : FunctionScope.resolve name line st.scopes with ⟨scopes, e | r⟩
  · simp only [hr, throw_ok] at hok
  · simp only [hr, pure_ok] at hok
    obtain ⟨rfl, -⟩ := hok
    rw [hscopes, FunctionScope.resolve] at hr
    simp only [List.head?_cons, Option.bind_some] at hr
    cases hfound : st.current.findLocal name with
    | some l => simp [hfound] at hr
    | none =>
      simp only [hfound] at hr
      split at hr
      · simp at hr
      next hnone =>
        obtain ⟨hfind, hups⟩ := FunctionScope.resolveUpvalue_none h.tracks.outer hnone
        refine ⟨⟨h.tracks.own.findLocal_eq_none_iff.mp hfound, hfind⟩, ?_⟩
        -- the main program has an upvalue `_ENV`
        rintro rfl
        obtain ⟨main, hmain, hup⟩ := Option.map_eq_some_iff.mp h.tracks.given
        have hmem := hups main (hscopes ▸ List.mem_of_getLast? hmain)
        unfold FunctionScope.findUpvalue at hmem
        rw [hup] at hmem
        simp at hmem
      · simp at hr

end Generator

end LuaMachine
