import LuaMachine.Proofs.Action
import LuaMachine.Proofs.Scoping.Sites
/-! # What the analysis of names finds

The analysis walks over a program with one list of variables for all open functions. Where it
succeeds, it saw each place of the program with the variables that are in scope there by the rules
of the language, and it recorded what the place needs.

* `Capture.Follows`: the analysis is at a place.
* `Capture.Analyses`: an action walks from one place to another and over some places on its way.
* `Capture.expr_analyses`, `Capture.stmts_analyses`: every expression and every block.
* `capturedBinders_heeded`: the places of a program are heeded.
-/
set_option autoImplicit false

namespace LuaMachine
namespace Capture

/-! ## Variables in one list -/

def binding? (depth : Nat) : Slot → Option Binding
  | .declared b => some ⟨b.name, b.number, depth⟩
  | .hidden => none

/-- The variables of some functions in one list, each with the depth of its function. -/
def visible : List (List Slot) → List Binding
  | [] => []
  | own :: outer => own.filterMap (binding? (outer.length + 1)) ++ visible outer

/-- What of a function stays the same while labels and jumps are added to it. -/
def outline (fn : OpenFunction) : Nat × Nat × List (Nat × Bool) :=
  (fn.start, fn.loops, fn.blocks.map fun b => (b.level, b.isLoop))

/-- The analysis is at a place with these variables in scope. -/
structure Follows (env : Surroundings) (a : State) : Prop where
  bindings : a.bindings = visible (env.own :: env.outer)
  depth : a.functions.length = env.outer.length + 1
  start : ∀ fn ∈ a.functions.head?, fn.start = (visible env.outer).length
  loops : ∀ fn ∈ a.functions.head?, 0 < fn.loops → env.inLoop = true

/-- What was captured stays captured. -/
def Records (a a' : State) : Prop :=
  ∀ n, a.captured.contains n = true → a'.captured.contains n = true

/-- From one place to another, over some places on the way. -/
structure Walks (env' : Surroundings) (sites : List Site) (a a' : State) : Prop where
  follows : Follows env' a'
  outlines : a'.functions.map outline = a.functions.map outline
  records : Records a a'
  heeded : ∀ captured : Std.HashSet Nat,
    (∀ n, a'.captured.contains n = true → captured.contains n = true) →
      ∀ s ∈ sites, s.Heeded captured

def Analyses (env env' : Surroundings) (sites : List Site) (act : Analysis Unit) : Prop :=
  (∀ s ∈ sites, s.Regular) → ∀ (a a' : State) (u : Unit), Follows env a → act a = .ok u a' →
    Walks env' sites a a'

variable {env env' env'' : Surroundings} {first second : List Site} {act act' : Analysis Unit}
  {a a' a'' : State} {u : Unit}

theorem Records.refl (a : State) : Records a a := fun _ h => h

theorem Records.trans (h : Records a a') (h' : Records a' a'') : Records a a'' :=
  fun n hn => h' n (h n hn)

theorem Walks.refl (h : Follows env a) : Walks env [] a a :=
  ⟨h, rfl, .refl a, by simp⟩

theorem Walks.trans (h : Walks env first a a') (h' : Walks env' second a' a'') :
    Walks env' (first ++ second) a a'' where
  follows := h'.follows
  outlines := h'.outlines.trans h.outlines
  records := h.records.trans h'.records
  heeded captured hc s hs := by
    rcases List.mem_append.mp hs with hs | hs
    · exact h.heeded captured (fun n hn => hc n (h'.records n hn)) s hs
    · exact h'.heeded captured hc s hs

theorem Analyses.skip (env : Surroundings) : Analyses env env [] (pure ()) := by
  intro _ a a' u hf h
  obtain ⟨-, rfl⟩ := pure_ok.mp h
  exact .refl hf

theorem Analyses.andThen (h : Analyses env env' first act) (h' : Analyses env' env'' second act') :
    Analyses env env'' (first ++ second) (do act; act') := by
  intro hregular a a'' u hf hok
  obtain ⟨_, a', hfirst, hsecond⟩ := bind_ok.mp hok
  have hwalks := h (fun s hs => hregular s (List.mem_append_left _ hs)) _ _ _ hf hfirst
  exact hwalks.trans
    (h' (fun s hs => hregular s (List.mem_append_right _ hs)) _ _ _ hwalks.follows hsecond)

/-- A place that needs nothing. -/
theorem Analyses.from {s : Site} (h : Analyses env env' first act) (hs : ∀ captured, s.Heeded captured) :
    Analyses env env' (s :: first) act := by
  intro hregular a a' u hf hok
  have hwalks := h (fun s hs => hregular s (List.mem_cons_of_mem _ hs)) _ _ _ hf hok
  refine { hwalks with heeded := fun captured hc s' hs' => ?_ }
  rcases List.mem_cons.mp hs' with rfl | hs'
  · exact hs captured
  · exact hwalks.heeded captured hc s' hs'

/-- A function in a list that has one. -/
theorem Follows.exists_function (h : Follows env a) : ∃ fn rest, a.functions = fn :: rest := by
  have hdepth := h.depth
  cases hfs : a.functions with
  | nil =>
    rw [hfs] at hdepth
    cases hdepth
  | cons fn rest => exact ⟨fn, rest, rfl⟩

theorem Follows.of_outlines (h : Follows env a)
    (hbindings : a'.bindings = visible (env'.own :: env'.outer))
    (houtlines : a'.functions.map outline = a.functions.map outline)
    (houter : env'.outer = env.outer) (hloop : env'.inLoop = env.inLoop) : Follows env' a' := by
  have hlength : a'.functions.length = a.functions.length := by
    simpa using congrArg List.length houtlines
  have hhead : ∀ fn' ∈ a'.functions.head?, ∃ fn ∈ a.functions.head?, outline fn' = outline fn := by
    intro fn' hfn'
    have hhead := congrArg List.head? houtlines
    rw [List.head?_map, List.head?_map, Option.mem_def.mp hfn', Option.map_some] at hhead
    obtain ⟨fn, hfn, heq⟩ := Option.map_eq_some_iff.mp hhead.symm
    exact ⟨fn, hfn, heq.symm⟩
  refine ⟨hbindings, by rw [hlength, h.depth, houter], fun fn' hfn' => ?_, fun fn' hfn' hpos => ?_⟩
  · obtain ⟨fn, hfn, heq⟩ := hhead fn' hfn'
    rw [houter, ← h.start fn hfn]
    exact congrArg Prod.fst heq
  · obtain ⟨fn, hfn, heq⟩ := hhead fn' hfn'
    rw [hloop]
    refine h.loops fn hfn ?_
    have hloops : fn'.loops = fn.loops := congrArg (fun o => o.2.1) heq
    omega

/-! ## Names -/

theorem depth_le {frames : List (List Slot)} {b : Binding} (hb : b ∈ visible frames) :
    b.depth ≤ frames.length := by
  induction frames with
  | nil => simp [visible] at hb
  | cons own outer ih =>
    simp only [visible, List.mem_append, List.mem_filterMap] at hb
    rcases hb with ⟨s, -, hs⟩ | hb
    · cases s with
      | declared c =>
        cases hs
        exact Nat.le_refl _
      | hidden => cases hs
    · have hle := ih hb
      simp only [List.length_cons]
      omega

/-- A name is looked up among the variables of the innermost function first. -/
theorem find?_binding?_append {own : List Slot} {depth : Nat} {rest : List Binding} {name : String}
    (hname : name ≠ loopState) :
    (own.filterMap (binding? depth) ++ rest).find? (fun b => b.name == name) =
      match Slot.find? own name with
      | some s => binding? depth s
      | none => rest.find? fun b => b.name == name := by
  induction own with
  | nil => rfl
  | cons s own ih =>
    cases s with
    | hidden =>
      have hne : (loopState == name) = false := by simpa using hname.symm
      simp only [List.filterMap_cons, binding?, Slot.find?, List.find?_cons, Slot.name, hne]
      exact ih
    | declared b =>
      simp only [List.filterMap_cons, binding?, Slot.find?, List.cons_append, List.find?_cons,
        Slot.name]
      split
      · rfl
      · exact ih

/-- What is found among variables of several functions. -/
theorem find?_visible (frames : List (List Slot)) {name : String} (hname : name ≠ loopState) :
    ((visible frames).find? fun b => b.name == name).map (fun b => (b.name, b.number)) =
      (Slot.find? frames.flatten name).bind fun s => (binding? 0 s).map fun b => (b.name, b.number) := by
  induction frames with
  | nil => rfl
  | cons own outer ih =>
    rw [visible, find?_binding?_append hname, List.flatten_cons]
    unfold Slot.find? at *
    rw [List.find?_append]
    cases own.find? (fun s => s.name == name) with
    | none => exact ih
    | some s => cases s <;> rfl

theorem exists_declared {slots : List Slot} {name : String} {s : Slot} (hname : name ≠ loopState)
    (h : Slot.find? slots name = some s) : ∃ b, s = .declared b := by
  have hs : s.name = name := by simpa using List.find?_some h
  cases s with
  | declared b => exact ⟨b, rfl⟩
  | hidden => exact absurd hs.symm hname

section Lookup

variable {name : String}

/-- A name is looked up in the innermost function, and then in those around it. -/
theorem Follows.lookUp (hf : Follows env a) (hname : name ≠ loopState) :
    a.bindings.find? (fun b => b.name == name) =
      match Slot.find? env.own name with
      | some s => binding? (env.outer.length + 1) s
      | none => (visible env.outer).find? fun b => b.name == name := by
  rw [hf.bindings, visible]
  exact find?_binding?_append hname

theorem Follows.lookUp_eq_none_iff (hf : Follows env a) (hname : name ≠ loopState) :
    (a.bindings.find? fun b => b.name == name) = none ↔ env.Lacks name := by
  have houter := find?_visible env.outer hname
  rw [hf.lookUp hname]
  unfold Surroundings.Lacks Surroundings.enclosing
  cases hown : Slot.find? env.own name with
  | some s =>
    obtain ⟨b, rfl⟩ := exists_declared hname hown
    simp [binding?]
  | none =>
    simp only [true_and]
    cases hencl : Slot.find? env.outer.flatten name with
    | none =>
      rw [hencl] at houter
      simpa using houter
    | some s =>
      obtain ⟨b, rfl⟩ := exists_declared hname hencl
      rw [hencl] at houter
      constructor
      · intro hnone
        rw [hnone] at houter
        cases houter
      · simp

/-- A variable of an outer function has a lower depth than the innermost function. -/
theorem Follows.recorded {b : Binding} {captured : Std.HashSet Nat} (hf : Follows env a)
    (hname : name ≠ loopState) (hb : (a.bindings.find? fun b => b.name == name) = some b)
    (hc : b.depth ≠ a.functions.length → captured.contains b.number = true) :
    env.Recorded captured name := by
  intro hown s hs
  have houter := find?_visible env.outer hname
  have hlook := hf.lookUp hname
  rw [hb, hown] at hlook
  simp only at hlook
  obtain ⟨c, rfl⟩ := exists_declared hname hs
  unfold Surroundings.enclosing at hs
  rw [← hlook, hs] at houter
  have hnumber : b.number = c.number := congrArg Prod.snd (Option.some.inj houter)
  have hdepth := depth_le (List.mem_of_find?_eq_some hlook.symm)
  have hinnermost := hf.depth
  rw [Slot.isCaptured, ← hnumber]
  exact hc (by omega)

/-- Using a name records its variable if that belongs to an outer function. -/
theorem refer?_ok {found : Bool} (h : refer? name a = .ok found a')
    (hf : Follows env a) (hname : name ≠ loopState) :
    Follows env a' ∧ a'.functions = a.functions ∧ Records a a' ∧
      (found = false ↔ env.Lacks name) ∧
      ∀ captured : Std.HashSet Nat,
        (∀ n, a'.captured.contains n = true → captured.contains n = true) →
          env.Recorded captured name := by
  simp only [refer?, bind_ok, get_ok, and_assoc, exists_and_left, exists_eq_left] at h
  rw [← hf.lookUp_eq_none_iff hname]
  cases hfind : a.bindings.find? fun b => b.name == name with
  | none =>
    simp only [hfind, pure_ok] at h
    obtain ⟨rfl, rfl⟩ := h
    have hlacks := (hf.lookUp_eq_none_iff hname).mp hfind
    refine ⟨hf, rfl, .refl _, by simp, fun captured _ _ s hs => ?_⟩
    exact absurd (hlacks.2.symm.trans hs) (by simp)
  | some b =>
    simp only [hfind] at h
    by_cases hb : b.depth = a.functions.length
    · simp only [hb, ne_eq, not_true_eq_false, if_false, pure_ok] at h
      obtain ⟨rfl, rfl⟩ := h
      exact ⟨hf, rfl, .refl _, by simp,
        fun captured _ => hf.recorded hname hfind fun hne => absurd hb hne⟩
    · simp only [ne_eq, hb, not_false_eq_true, if_true, bind_ok, set_ok, pure_ok, exists_and_left,
        exists_eq_left, exists_const] at h
      obtain ⟨rfl, rfl⟩ := h
      refine ⟨⟨hf.bindings, hf.depth, hf.start, hf.loops⟩, rfl, fun n hn => ?_, by simp,
        fun captured hc => hf.recorded hname hfind fun _ => hc _ ?_⟩
      · simp only [Std.HashSet.contains_insert, hn, Bool.or_true]
      · simp

end Lookup

theorem refer_analyses (env : Surroundings) (name : String) :
    Analyses env env [.name env name] (refer name) := by
  intro hregular a a' u hf h
  have hname : name ≠ loopState := hregular _ (List.mem_singleton_self _)
  simp only [refer, bind_ok] at h
  obtain ⟨found, a₁, hfirst, h⟩ := h
  obtain ⟨hf₁, hfunctions₁, hrecords₁, hlacks, hrecorded⟩ := refer?_ok hfirst hf hname
  cases found with
  | true =>
    simp only [Bool.not_true, Bool.false_eq_true, if_false, pure_ok] at h
    obtain ⟨-, rfl⟩ := h
    refine ⟨hf₁, by rw [hfunctions₁], hrecords₁, fun captured hc s hs => ?_⟩
    obtain rfl := List.mem_singleton.mp hs
    exact ⟨hrecorded captured hc, fun hlacks' => absurd (hlacks.mpr hlacks') (by simp)⟩
  | false =>
    simp only [Bool.not_false, if_true, bind_ok, pure_ok] at h
    obtain ⟨_, a₂, hsecond, -, rfl⟩ := h
    obtain ⟨hf₂, hfunctions₂, hrecords₂, -, hrecorded'⟩ := refer?_ok hsecond hf₁ (by decide)
    refine ⟨hf₂, by rw [hfunctions₂, hfunctions₁], hrecords₁.trans hrecords₂,
      fun captured hc s hs => ?_⟩
    obtain rfl := List.mem_singleton.mp hs
    exact ⟨hrecorded captured fun n hn => hc n (hrecords₂ n hn), fun _ => hrecorded' captured hc⟩

/-! ## Variables and blocks -/

theorem declare_ok {b : Binder} (h : declare b a = .ok u a') (hf : Follows env a) :
    Follows (env.declare [b]) a' ∧ a'.functions = a.functions ∧ a'.captured = a.captured := by
  simp only [declare, modify_ok] at h
  subst h
  refine ⟨⟨?_, hf.depth, hf.start, hf.loops⟩, rfl, rfl⟩
  simp only [hf.bindings, hf.depth, visible, Surroundings.declare, List.map_cons, List.map_nil,
    List.reverse_cons, List.reverse_nil, List.nil_append, List.cons_append, List.filterMap_cons,
    binding?]

theorem declareAll_ok {bs : List Binder} (h : declareAll bs a = .ok u a') (hf : Follows env a) :
    Follows (env.declare bs) a' ∧ a'.functions = a.functions ∧ a'.captured = a.captured := by
  induction bs generalizing env a with
  | nil =>
    simp only [declareAll, List.forM_eq_forM, List.forM_nil, pure_ok] at h
    obtain ⟨-, rfl⟩ := h
    exact ⟨hf, rfl, rfl⟩
  | cons b bs ih =>
    obtain ⟨a₁, hb, h⟩ := forM_ok h
    obtain ⟨hf₁, hfunctions₁, hcaptured₁⟩ := declare_ok hb hf
    obtain ⟨hf', hfunctions', hcaptured'⟩ := ih h hf₁
    refine ⟨?_, hfunctions'.trans hfunctions₁, hcaptured'.trans hcaptured₁⟩
    rw [Surroundings.declare_cons]
    exact hf'

theorem declareAll_analyses (env : Surroundings) (bs : List Binder) :
    Analyses env (env.declare bs) [] (declareAll bs) := by
  intro _ a a' u hf h
  obtain ⟨hf', hfunctions, hcaptured⟩ := declareAll_ok h hf
  exact ⟨hf', by rw [hfunctions], fun n hn => hcaptured ▸ hn, by simp⟩

theorem currentFunction_ok {fn : OpenFunction} :
    currentFunction a = .ok fn a' ↔ fn = a.functions.headD ⟨0, 0, []⟩ ∧ a' = a := by
  simp only [currentFunction, bind_ok, get_ok, pure_ok, and_assoc, exists_and_left, exists_eq_left]

theorem level_ok {n : Nat} (h : level a = .ok n a') :
    n = a.bindings.length - (a.functions.headD ⟨0, 0, []⟩).start ∧ a' = a := by
  simpa only [level, bind_ok, get_ok, currentFunction_ok, pure_ok, and_assoc, exists_and_left,
    exists_eq_left] using h

theorem modifyFunction_ok {f : OpenFunction → OpenFunction} (h : modifyFunction f a = .ok u a') :
    a' = { a with functions := a.functions.modifyHead f } := modify_ok.mp h

section Blocks

variable {isLoop : Bool} {fn : OpenFunction} {rest : List OpenFunction}

theorem openBlock_ok (h : openBlock isLoop a = .ok u a') (hfn : a.functions = fn :: rest) :
    a' = { a with
      functions := { fn with
        loops := if isLoop then fn.loops + 1 else fn.loops
        blocks := { level := a.bindings.length - fn.start, isLoop := isLoop } :: fn.blocks } ::
          rest } := by
  simp only [openBlock, bind_ok] at h
  obtain ⟨n, a₁, hlevel, h⟩ := h
  obtain ⟨rfl, rfl⟩ := level_ok hlevel
  rw [modifyFunction_ok h, hfn]
  rfl

/-- The variables of a block end with it, and the function around it is as it was before. -/
theorem closeBlock_ok {start loops n : Nat} {outer : List (Nat × Bool)}
    (h : closeBlock a = .ok u a') (hfn : a.functions = fn :: rest)
    (hout : outline fn = (start, loops, (n, isLoop) :: outer)) :
    a'.bindings = a.bindings.drop (a.bindings.length - (start + n)) ∧ a'.captured = a.captured ∧
      ∃ fn', a'.functions = fn' :: rest ∧
        outline fn' = (start, if isLoop then loops - 1 else loops, outer) := by
  obtain ⟨s, l, blocks⟩ := fn
  simp only [outline, Prod.mk.injEq] at hout
  obtain ⟨rfl, rfl, hblocks⟩ := hout
  obtain ⟨block, blocks, rfl, hblock, rfl⟩ := List.map_eq_cons_iff.mp hblocks
  simp only [Prod.mk.injEq] at hblock
  obtain ⟨rfl, rfl⟩ := hblock
  simp only [closeBlock, bind_ok, currentFunction_ok, hfn, List.headD_cons, modify_ok,
    modifyFunction, and_assoc, exists_and_left, exists_eq_left, exists_const] at h
  have hmap : ∀ gs : List PendingGoto,
      (blocks.modifyHead fun b => { b with gotos := b.gotos ++ gs }).map
        (fun b => (b.level, b.isLoop)) = blocks.map fun b => (b.level, b.isLoop) := by
    intro gs
    cases blocks <;> rfl
  split at h
  · cases hgotos : block.gotos with
    | nil =>
      simp only [hgotos, pure_ok] at h
      obtain ⟨-, rfl⟩ := h
      refine ⟨rfl, rfl, _, rfl, ?_⟩
      simp only [outline, List.map_nil, hmap]
    | cons g gs => simp only [hgotos, fail, throw_ok] at h
  · obtain ⟨-, rfl⟩ := pure_ok.mp h
    refine ⟨rfl, rfl, _, rfl, ?_⟩
    simp only [outline, hmap]

theorem Follows.openBlock (hf : Follows env a) (h : openBlock isLoop a = .ok u a') :
    Follows (if isLoop then env.loop else env) a' := by
  obtain ⟨fn, rest, hfn⟩ := hf.exists_function
  have hdepth := hf.depth
  have hstart := hf.start fn (by simp [hfn])
  have hloops := hf.loops fn (by simp [hfn])
  rw [openBlock_ok h hfn]
  rw [hfn] at hdepth
  cases isLoop with
  | true =>
    refine ⟨hf.bindings, hdepth, fun fn' hfn' => ?_, fun _ _ _ => rfl⟩
    cases hfn'
    exact hstart
  | false =>
    refine ⟨hf.bindings, hdepth, fun fn' hfn' => ?_, fun fn' hfn' hpos => ?_⟩ <;> cases hfn'
    · exact hstart
    · exact hloops hpos

/-- The variables in scope are some further ones of the innermost function. -/
theorem visible_append {own more : List Slot} {outer : List (List Slot)} :
    visible ((more ++ own) :: outer) =
      more.filterMap (binding? (outer.length + 1)) ++ visible (own :: outer) := by
  simp [visible]

/-- What stands in a block leaves the place around the block as it was. -/
theorem Walks.block {sites : List Site} {a₁ a₂ : State} {u₁ u₂ : Unit} (hf : Follows env a)
    (hopen : openBlock isLoop a = .ok u₁ a₁) (hbody : Walks env'' sites a₁ a₂)
    (hown : ∃ more, env''.own = more ++ env.own) (houter : env''.outer = env.outer)
    (hclose : closeBlock a₂ = .ok u₂ a') : Walks env sites a a' := by
  obtain ⟨more, hown⟩ := hown
  obtain ⟨fn, rest, hfn⟩ := hf.exists_function
  have hstart := hf.start fn (by simp [hfn])
  have hopened := openBlock_ok hopen hfn
  have houtlines := hbody.outlines
  rw [hopened, List.map_cons] at houtlines
  obtain ⟨fn₂, rest₂, hfn₂, hhead, hrest⟩ := List.map_eq_cons_iff.mp houtlines
  obtain ⟨hbindings, hcaptured, fn', hfn', hout⟩ := closeBlock_ok hclose hfn₂ hhead
  have hvisible := hbody.follows.bindings
  rw [hown, houter, visible_append, ← hf.bindings] at hvisible
  have hle : fn.start ≤ a.bindings.length := by
    rw [hf.bindings, visible, List.length_append]
    omega
  have hback : a'.bindings = a.bindings := by
    rw [hbindings, hvisible, List.length_append, Nat.add_sub_of_le hle, Nat.add_sub_cancel]
    exact List.drop_left
  have hmap : a'.functions.map outline = a.functions.map outline := by
    rw [hfn', hfn, List.map_cons, List.map_cons, hout, hrest]
    cases isLoop <;> rfl
  have hrecords : Records a a' := fun n hn => by
    rw [hcaptured]
    refine hbody.records n ?_
    rw [hopened]
    exact hn
  exact ⟨hf.of_outlines (hback.trans hf.bindings) hmap rfl rfl, hmap, hrecords,
    fun captured hc => hbody.heeded captured fun n hn => hc n (hcaptured ▸ hn)⟩

theorem openFunction_ok (h : openFunction a = .ok u a') :
    a' = { a with functions := ⟨a.bindings.length, 0, [⟨0, false, [], []⟩]⟩ :: a.functions } := by
  simp only [openFunction, bind_ok, modify_ok, exists_eq_left, exists_const] at h
  rw [openBlock_ok h rfl]
  simp

theorem Follows.openFunction (hf : Follows env a) (h : openFunction a = .ok u a') :
    Follows (env.inside []) a' := by
  rw [openFunction_ok h]
  refine ⟨?_, ?_, fun fn hfn => ?_, fun fn hfn hpos => ?_⟩
  · simp [hf.bindings, Surroundings.inside, visible]
  · simp [hf.depth, Surroundings.inside]
  · cases hfn
    exact congrArg List.length hf.bindings
  · cases hfn
    exact absurd hpos (Nat.lt_irrefl 0)

/-- What stands in a function leaves the place around the function as it was. -/
theorem Walks.function {sites : List Site} {a₁ a₂ : State} {u₁ u₂ : Unit} (hf : Follows env a)
    (hopen : openFunction a = .ok u₁ a₁) (hbody : Walks env'' sites a₁ a₂)
    (houter : env''.outer = env.own :: env.outer) (hclose : closeFunction a₂ = .ok u₂ a') :
    Walks env sites a a' := by
  have hopened := openFunction_ok hopen
  have houtlines := hbody.outlines
  rw [hopened, List.map_cons] at houtlines
  obtain ⟨fn₂, rest₂, hfn₂, hhead, hrest⟩ := List.map_eq_cons_iff.mp houtlines
  simp only [closeFunction, bind_ok, modify_ok] at hclose
  obtain ⟨_, a₃, hclose, rfl⟩ := hclose
  obtain ⟨hbindings, hcaptured, fn', hfn', -⟩ := closeBlock_ok hclose hfn₂ hhead
  have hvisible := hbody.follows.bindings
  rw [houter, visible, ← hf.bindings] at hvisible
  have hback : a₃.bindings = a.bindings := by
    rw [hbindings, hvisible, List.length_append]
    change List.drop (_ + a.bindings.length - a.bindings.length) _ = _
    rw [Nat.add_sub_cancel]
    exact List.drop_left
  have hmap : a₃.functions.tail.map outline = a.functions.map outline := by
    rw [hfn', List.tail_cons, hrest]
  have hrecords : Records a a₃ := fun n hn => by
    rw [hcaptured]
    refine hbody.records n ?_
    rw [hopened]
    exact hn
  exact ⟨hf.of_outlines (hback.trans hf.bindings) hmap rfl rfl, hmap, hrecords,
    fun captured hc => hbody.heeded captured fun n hn => hc n (hcaptured ▸ hn)⟩

end Blocks

/-! ## The traversal -/

theorem Follows.counting (hf : Follows env a) : Follows env.counting a := by
  refine ⟨?_, hf.depth, hf.start, hf.loops⟩
  rw [hf.bindings]
  rfl

/-- A body in a block of its own. -/
theorem block_analyses (isLoop : Bool) {sites : List Site}
    (hbody : Analyses (if isLoop then env.loop else env) env' sites act)
    (hown : ∃ more, env'.own = more ++ env.own) (houter : env'.outer = env.outer) :
    Analyses env env sites (do openBlock isLoop; act; closeBlock) := by
  intro hregular a a' u hf h
  simp only [bind_ok] at h
  obtain ⟨_, a₁, hopen, _, a₂, hinner, hclose⟩ := h
  exact .block hf hopen (hbody hregular _ _ _ (hf.openBlock hopen) hinner) hown houter hclose

theorem leaveLoop_analyses (env : Surroundings) (line : Nat) :
    Analyses env env [.exit env] (leaveLoop line) := by
  intro _ a a' u hf h
  obtain ⟨fn, rest, hfn⟩ := hf.exists_function
  simp only [leaveLoop, bind_ok, currentFunction_ok, hfn, List.headD_cons, and_assoc,
    exists_and_left, exists_eq_left] at h
  split at h
  · simp only [fail, throw_ok] at h
  next hne =>
    obtain ⟨-, rfl⟩ := pure_ok.mp h
    refine ⟨hf, rfl, .refl _, fun captured _ s hs => ?_⟩
    obtain rfl := List.mem_singleton.mp hs
    exact hf.loops fn (by simp [hfn]) (by omega)

/-- Changing the labels and jumps of the current block. -/
theorem modifyBlock_walks {f : OpenBlock → OpenBlock} (hf : Follows env a)
    (h : modifyBlock f a = .ok u a') (hsame : ∀ b, ((f b).level, (f b).isLoop) = (b.level, b.isLoop)) :
    Walks env [] a a' := by
  have heq := modifyFunction_ok h
  subst heq
  have hmap : (a.functions.modifyHead fun fn => { fn with blocks := fn.blocks.modifyHead f }).map
      outline = a.functions.map outline := by
    cases a.functions with
    | nil => rfl
    | cons fn rest =>
      simp only [List.modifyHead_cons, List.map_cons, outline]
      cases fn.blocks with
      | nil => rfl
      | cons b bs => simp only [List.modifyHead_cons, List.map_cons, hsame]
  exact ⟨hf.of_outlines hf.bindings hmap rfl rfl, hmap, .refl _, by simp⟩

theorem jumpTo_analyses (env : Surroundings) (name : String) (line : Nat) :
    Analyses env env [] (jumpTo name line) := by
  intro _ a a' u hf h
  simp only [jumpTo, bind_ok, currentFunction_ok, and_assoc, exists_and_left, exists_eq_left] at h
  split at h
  · obtain ⟨-, rfl⟩ := pure_ok.mp h
    exact .refl hf
  · simp only [bind_ok] at h
    obtain ⟨n, a₁, hlevel, h⟩ := h
    obtain ⟨-, rfl⟩ := level_ok hlevel
    exact modifyBlock_walks hf h fun _ => rfl

theorem declareLabel_analyses (env : Surroundings) (name : String) (line : Nat) (atEnd : Bool) :
    Analyses env env [] (declareLabel name line atEnd) := by
  intro _ a a' u hf h
  simp only [declareLabel, bind_ok, currentFunction_ok, and_assoc, exists_and_left,
    exists_eq_left] at h
  cases hlabel : ((a.functions.headD ⟨0, 0, []⟩).blocks.flatMap fun b => b.labels).find?
      fun l => l.name == name with
  | some l => simp only [hlabel, fail, throw_ok] at h
  | none =>
    simp only [hlabel, currentBlock, bind_ok, currentFunction_ok, pure_ok, and_assoc,
      exists_and_left, exists_eq_left] at h
    split at h <;> obtain ⟨n, a₁, hlevel, h⟩ := bind_ok.mp h
    all_goals
      obtain rfl : a₁ = a := (pure_ok.mp hlevel).2
      cases hwaiting : ((a₁.functions.headD ⟨0, 0, []⟩).blocks.headD ⟨0, false, [], []⟩).gotos.find?
          fun g => g.name == name && g.level < n with
      | some g =>
        simp only [hwaiting, fail, bind_ok, get_ok, throw_ok, and_false, exists_false] at h
      | none =>
        simp only [hwaiting] at h
        exact modifyBlock_walks hf h fun _ => rfl

/-- Statements in a block of their own. -/
theorem body_analyses (isLoop : Bool) {ss : List Stmt} {sites : List Site}
    (hbody : Analyses (if isLoop then env.loop else env) ((if isLoop then env.loop else env).after ss)
      sites (stmts true ss)) :
    Analyses env env sites (do openBlock isLoop; stmts true ss; closeBlock) := by
  refine block_analyses isLoop hbody ⟨((ss.flatMap Stmt.declared).map Slot.declared).reverse, ?_⟩ ?_ <;>
    cases isLoop <;> rfl

/-- The variables of a counting loop are declared in the block of its body. -/
theorem loop_analyses {bs : List Binder} {ss : List Stmt} {sites : List Site}
    (hbody : Analyses (env.counting.loop.declare bs) ((env.counting.loop.declare bs).after ss) sites
      (stmts true ss)) :
    Analyses env env sites (do openBlock true; declareAll bs; stmts true ss; closeBlock) := by
  have hinner := (declareAll_analyses env.counting.loop bs).andThen hbody
  rw [List.nil_append] at hinner
  have hblock : Analyses env.counting env.counting sites _ := block_analyses true hinner
    ⟨((bs ++ ss.flatMap Stmt.declared).map Slot.declared).reverse, by
      simp [Surroundings.after, Surroundings.declare, Surroundings.loop]⟩ rfl
  simp only [bind_assoc] at hblock
  intro hregular a a' u hf h
  have hwalks := hblock hregular _ _ _ hf.counting h
  exact ⟨hf.of_outlines hwalks.follows.bindings hwalks.outlines rfl rfl, hwalks.outlines,
    hwalks.records, hwalks.heeded⟩

theorem function_analyses {name : String} {params : List Binder} {variadic : Bool}
    {ss : List Stmt} {line endLine : Nat} {sites : List Site}
    (hbody : Analyses (env.inside params) ((env.inside params).after ss) sites (stmts true ss)) :
    Analyses env env (.function env (.mk name params variadic ss line endLine) :: sites)
      (function (.mk name params variadic ss line endLine)) := by
  have hinside : (env.inside []).declare params = env.inside params := by
    simp [Surroundings.inside, Surroundings.declare]
  have hinner := (declareAll_analyses (env.inside []) params).andThen (hinside ▸ hbody)
  intro hregular a a' u hf h
  simp only [function, bind_ok] at h
  obtain ⟨_, a₁, hopen, _, a₂, hparams, _, a₃, hstmts, hclose⟩ := h
  have hwalks := hinner (fun s hs => hregular s (List.mem_cons_of_mem _ hs)) _ _ _
    (hf.openFunction hopen) (bind_ok.mpr ⟨(), a₂, hparams, hstmts⟩)
  have hwhole := Walks.function hf hopen hwalks (by rw [hinside]; rfl) hclose
  refine ⟨hwhole.follows, hwhole.outlines, hwhole.records, fun captured hc s hs => ?_⟩
  rcases List.mem_cons.mp hs with rfl | hs
  · trivial
  · exact hwhole.heeded captured hc s hs

/-- An action after which other places are left to see. -/
theorem Analyses.cast (h : Analyses env env' first act) (henv : env' = env'')
    (hsites : first = second) (hact : act = act') : Analyses env env'' second act' := by
  subst henv hsites hact
  exact h

theorem after_cons (env : Surroundings) (s : Stmt) (rest : List Stmt) :
    env.after (s :: rest) = (env.declare s.declared).after rest := by
  simp only [Surroundings.after, List.flatMap_cons, Surroundings.declare_append]

theorem cond_analyses {condition : Expr} {ss : List Stmt} {more : List Branch}
    {otherwise : Option (List Stmt)} (line : Nat)
    (hcond : Analyses env env (Sites.expr env condition) (expr condition))
    (hbody : Analyses env (env.after ss) (Sites.stmts env ss) (stmts true ss))
    (hmore : Analyses env env (Sites.branches env more) (branches more))
    (hlast : ∀ ss', otherwise = some ss' →
      Analyses env (env.after ss') (Sites.stmts env ss') (stmts true ss')) :
    Analyses env env (Sites.stmt env (.cond condition ss more otherwise line))
      (stmt (.cond condition ss more otherwise line)) := by
  have hfirst := (hcond.andThen (body_analyses false hbody)).andThen hmore
  rw [Sites.stmt.eq_def, stmt.eq_def]
  cases otherwise with
  | none =>
    refine (hfirst.andThen (.skip env)).cast rfl rfl ?_
    simp only [bind_assoc]
  | some ss' =>
    refine (hfirst.andThen (body_analyses false (hlast ss' rfl))).cast rfl rfl ?_
    simp only [bind_assoc]

theorem repeat_analyses {condition : Expr} {ss : List Stmt} {line : Nat} {first sites : List Site}
    (hbody : Analyses env.loop (env.loop.after ss) sites (stmts false ss))
    (hcond : Analyses (env.loop.after ss) (env.loop.after ss) first (expr condition)) :
    Analyses env env (sites ++ first) (stmt (.repeatLoop ss condition line)) := by
  refine (block_analyses true (hbody.andThen hcond)
    ⟨((ss.flatMap Stmt.declared).map Slot.declared).reverse, rfl⟩ rfl).cast rfl rfl ?_
  rw [stmt]
  simp only [bind_assoc]

theorem numericFor_analyses {b : Binder} {start stop : Expr} {step : Option Expr} {ss : List Stmt}
    (line : Nat) (hstart : Analyses env env (Sites.expr env start) (expr start))
    (hstop : Analyses env env (Sites.expr env stop) (expr stop))
    (hstep : ∀ e, step = some e → Analyses env env (Sites.expr env e) (expr e))
    (hbody : Analyses (env.counting.loop.declare [b]) ((env.counting.loop.declare [b]).after ss)
      (Sites.stmts (env.counting.loop.declare [b]) ss) (stmts true ss)) :
    Analyses env env (Sites.stmt env (.numericFor b start stop step ss line))
      (stmt (.numericFor b start stop step ss line)) := by
  have hfirst := hstart.andThen hstop
  rw [Sites.stmt.eq_def, stmt.eq_def]
  cases step with
  | none =>
    refine ((hfirst.andThen (.skip env)).andThen (loop_analyses hbody)).cast rfl rfl ?_
    simp [declareAll]
  | some e =>
    refine ((hfirst.andThen (hstep e rfl)).andThen (loop_analyses hbody)).cast rfl rfl ?_
    simp [declareAll]

theorem stmts_cons_analyses {s : Stmt} {rest : List Stmt} {ends : Bool} {sites : List Site}
    (hs : Analyses env (env.declare s.declared) (Sites.stmt env s) (stmt s))
    (hrest : Analyses (env.declare s.declared) ((env.declare s.declared).after rest) sites
      (stmts ends rest)) :
    Analyses env (env.after (s :: rest)) (Sites.stmt env s ++ sites) (stmts ends (s :: rest)) := by
  rw [after_cons]
  by_cases hlabel : ∃ name line, s = .label name line
  · obtain ⟨name, line, rfl⟩ := hlabel
    rw [stmts]
    exact (declareLabel_analyses env name line _).andThen hrest
  · rw [stmts.eq_3 _ _ _ fun name line heq => hlabel ⟨name, line, heq⟩]
    exact hs.andThen hrest

/-- The targets of an assignment are places of their own, and nothing of them has to be recorded. -/
theorem Analyses.targets (h : Analyses env env' first act) (es : List Expr) :
    Analyses env env' (es.map .target ++ first) act := by
  intro hregular a a' u hf hok
  have hwalks := h (fun s hs => hregular s (List.mem_append_right _ hs)) _ _ _ hf hok
  refine ⟨hwalks.follows, hwalks.outlines, hwalks.records, fun captured hc s hs => ?_⟩
  rcases List.mem_append.mp hs with hs | hs
  · obtain ⟨e, -, rfl⟩ := List.mem_map.mp hs
    trivial
  · exact hwalks.heeded captured hc s hs

mutual

theorem expr_analyses (env : Surroundings) : (e : Expr) →
    Analyses env env (Sites.expr env e) (expr e)
  | .literal _ _ | .str _ _ | .vararg _ => .skip env
  | .unary _ e _ | .paren e _ => expr_analyses env e
  | .binary _ l r _ => (expr_analyses env l).andThen (expr_analyses env r)
  | .name n _ => refer_analyses env n
  | .call f args _ => (expr_analyses env f).andThen (exprs_analyses env args)
  | .method e _ args _ => (expr_analyses env e).andThen (exprs_analyses env args)
  | .table fs _ => fields_analyses env fs
  | .index e k _ => (expr_analyses env e).andThen (expr_analyses env k)
  | .function f => nested_analyses env f

theorem exprs_analyses (env : Surroundings) : (es : List Expr) →
    Analyses env env (Sites.exprs env es) (exprs es)
  | [] => .skip env
  | e :: rest => (expr_analyses env e).andThen (exprs_analyses env rest)

theorem field_analyses (env : Surroundings) : (f : Field) →
    Analyses env env (Sites.field env f) (field f)
  | .item e => expr_analyses env e
  | .pair k e => (expr_analyses env k).andThen (expr_analyses env e)

theorem fields_analyses (env : Surroundings) : (fs : List Field) →
    Analyses env env (Sites.fields env fs) (fields fs)
  | [] => .skip env
  | f :: rest => (field_analyses env f).andThen (fields_analyses env rest)

theorem nested_analyses (env : Surroundings) : (f : Function) →
    Analyses env env (Sites.function env f) (function f)
  | .mk _ params _ body _ _ => function_analyses (stmts_analyses (env.inside params) true body)

theorem branch_analyses (env : Surroundings) : (b : Branch) →
    Analyses env env (Sites.branch env b) (branch b)
  | .mk condition body =>
    (expr_analyses env condition).andThen
      (body_analyses false (stmts_analyses env true body))

theorem branches_analyses (env : Surroundings) : (bs : List Branch) →
    Analyses env env (Sites.branches env bs) (branches bs)
  | [] => .skip env
  | b :: rest => (branch_analyses env b).andThen (branches_analyses env rest)

theorem stmt_analyses (env : Surroundings) : (s : Stmt) →
    Analyses env (env.declare s.declared) (Sites.stmt env s) (stmt s)
  | .expr e _ => expr_analyses env e
  | .assign targets values _ =>
    (((exprs_analyses env targets).andThen (exprs_analyses env values)).targets targets).cast rfl
      (List.append_assoc ..).symm rfl
  | .locals bs values _ =>
    ((exprs_analyses env values).andThen (declareAll_analyses env bs)).cast rfl
      (List.append_nil _) rfl
  | .localFunction b f _ =>
    ((declareAll_analyses env [b]).andThen (nested_analyses _ f)).cast rfl rfl
      (by simp [declareAll, stmt])
  | .function target f _ =>
    ((expr_analyses env target).andThen (nested_analyses env f)).targets [target]
  | .block body _ => body_analyses false (stmts_analyses env true body)
  | .cond condition body more otherwise line =>
    cond_analyses line (expr_analyses env condition) (stmts_analyses env true body)
      (branches_analyses env more)
      (match otherwise with
        | none => (by simp)
        | some ss => fun _ heq => Option.some.inj heq ▸ stmts_analyses env true ss)
  | .whileLoop condition body _ =>
    (expr_analyses env condition).andThen
      (body_analyses true (stmts_analyses env.loop true body))
  | .repeatLoop body condition _ =>
    repeat_analyses (stmts_analyses env.loop false body) (expr_analyses _ condition)
  | .numericFor _ start stop step body line =>
    numericFor_analyses line (expr_analyses env start) (expr_analyses env stop)
      (match step with
        | none => (by simp)
        | some e => fun _ heq => Option.some.inj heq ▸ expr_analyses env e)
      (stmts_analyses _ true body)
  | .genericFor _ iterators body _ =>
    ((exprs_analyses env iterators).andThen (loop_analyses (stmts_analyses _ true body))).from
      fun _ => trivial
  | .ret values _ => exprs_analyses env values
  | .exit line => leaveLoop_analyses env line
  | .goto name line => jumpTo_analyses env name line
  | .label name line => declareLabel_analyses env name line false

theorem stmts_analyses (env : Surroundings) (ends : Bool) : (ss : List Stmt) →
    Analyses env (env.after ss) (Sites.stmts env ss) (stmts ends ss)
  | [] => .skip env
  | s :: rest =>
    stmts_cons_analyses (stmt_analyses env s) (stmts_analyses (env.declare s.declared) ends rest)

end

end Capture

open Capture in
/-- What the places of a program need is among the captured binders. -/
theorem capturedBinders_heeded {program : Block} {captured : Std.HashSet Nat}
    (h : capturedBinders program = .ok captured) (hregular : ∀ s ∈ sites program, s.Regular) :
    ∀ s ∈ sites program, s.Heeded captured := by
  unfold capturedBinders at h
  simp only at h
  split at h
  next a hrun =>
    cases h
    simp only [EStateM.run, bind_ok] at hrun
    obtain ⟨_, a₁, hopen, _, a₂, hbody, hclose⟩ := hrun
    have hopened := openFunction_ok hopen
    have hfollows : Follows {} a₁ := by
      rw [hopened]
      refine ⟨rfl, rfl, fun fn hfn => ?_, fun fn hfn hpos => ?_⟩ <;> cases hfn
      · rfl
      · exact absurd hpos (Nat.lt_irrefl 0)
    have hwalks := stmts_analyses {} true program hregular _ _ _ hfollows hbody
    refine hwalks.heeded _ fun n hn => ?_
    -- closing the function captures nothing more
    have houtlines := hwalks.outlines
    rw [hopened, List.map_cons] at houtlines
    obtain ⟨fn, rest, hfn, hhead, -⟩ := List.map_eq_cons_iff.mp houtlines
    simp only [closeFunction, bind_ok, modify_ok] at hclose
    obtain ⟨_, a₃, hclose, rfl⟩ := hclose
    obtain ⟨-, hcaptured, -⟩ := closeBlock_ok hclose hfn hhead
    exact hcaptured ▸ hn
  next => cases h

end LuaMachine
