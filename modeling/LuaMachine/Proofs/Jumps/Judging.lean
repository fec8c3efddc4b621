import LuaMachine.Proofs.Action
import LuaMachine.Proofs.Jumps.Rules
/-! # How the analysis judges jumps and labels

The analysis reads a block from its first statement to its last. A jump whose label is still to come
waits, in its block and then in the blocks around it, with the number of variables it saw. So one
part of a block is judged by what is already seen, and leaves to the rest what waits.

* `Jumps.Place.Fine`, `Jumps.Place.Leaves`: a place as far as some blocks around it are known.
* `Jumps.Judges`: an action succeeds just where a claim is true.
* `Jumps.Here`, `Jumps.Reads`: where the analysis is, and what it does with a part of a block.
* `Jumps.Here.declareLabel`, `Jumps.jumpTo_reads`, `Jumps.leaveLoop_reads`: labels and jumps.
-/
set_option autoImplicit false

namespace LuaMachine
namespace Jumps

/-! ## Places from inside out -/

/-- What can be said of a place from the blocks around it that are known; outside of these a loop
may be open, and some labels are seen. -/
def Place.Fine (inLoop : Bool) (seen : List String) (p : Place) : Prop :=
  match p.mark with
  | .exit => inLoop = true ∨ ∃ e ∈ p.around, e.kind.isLoop = true
  | .label name => name ∉ seen ∧ ∀ e ∈ p.around, name ∉ labels e.before
  | .goto name =>
    ∀ e, p.around.find? (fun e => e.holds name) = some e →
      name ∈ labels e.before ∨ ¬ e.Skips name

/-- A `goto` that does not find its label in the blocks around it. -/
def Place.Leaves (p : Place) (name : String) : Prop :=
  p.mark = .goto name ∧ ∀ e ∈ p.around, e.holds name = false

theorem Place.legal_iff (p : Place) :
    p.Legal ↔ p.Fine false [] ∧ ∀ name, ¬ p.Leaves name := by
  obtain ⟨mark, around⟩ := p
  cases mark with
  | exit => simp [Legal, Fine, Leaves]
  | label name => simp [Legal, Fine, Leaves]
  | goto name =>
    simp only [Legal, Fine, Leaves, Mark.goto.injEq]
    constructor
    · rintro ⟨e, he, hrule⟩
      refine ⟨fun e' he' => ?_, ?_⟩
      · obtain rfl : e = e' := Option.some.inj (he.symm.trans he')
        exact hrule
      · rintro _ ⟨rfl, hnone⟩
        have hholds := List.find?_some he
        simp [hnone e (List.mem_of_find?_eq_some he)] at hholds
    · rintro ⟨hfine, hleaves⟩
      cases hfind : around.find? fun e => e.holds name with
      | some e => exact ⟨e, rfl, hfine e hfind⟩
      | none =>
        have hnone := List.find?_eq_none.mp hfind
        exact absurd ⟨rfl, fun e he => by simpa using hnone e he⟩ (hleaves name)

theorem Place.leaves_within (p : Place) (e : Enclosure) (name : String) :
    (p.within e).Leaves name ↔ p.Leaves name ∧ e.holds name = false := by
  simp only [Leaves, within, List.mem_append, List.mem_singleton, or_imp, forall_and,
    forall_eq, and_assoc]

theorem Place.fine_congr (p : Place) (inLoop : Bool) {seen seen' : List String}
    (h : ∀ name, name ∈ seen ↔ name ∈ seen') : p.Fine inLoop seen ↔ p.Fine inLoop seen' := by
  obtain ⟨mark, around⟩ := p
  cases mark with
  | label name => simp only [Fine, h]
  | _ => rfl

/-- A place with one more block around it. -/
theorem Place.fine_within (p : Place) (e : Enclosure) (inLoop : Bool) (seen : List String) :
    (p.within e).Fine inLoop seen ↔
      p.Fine (inLoop || e.kind.isLoop) (labels e.before ++ seen) ∧
        ∀ name, p.Leaves name → name ∈ labels e.after →
          name ∈ labels e.before ∨ ¬ e.Skips name := by
  obtain ⟨mark, around⟩ := p
  cases mark with
  | exit =>
    simp only [Fine, within, Leaves, List.mem_append, List.mem_singleton, or_and_right, exists_or,
      exists_eq_left, Bool.or_eq_true, reduceCtorEq, false_and, false_imp_iff, implies_true,
      and_true]
    grind
  | label name =>
    simp only [Fine, within, Leaves, List.mem_append, List.mem_singleton, or_imp, forall_and,
      forall_eq, reduceCtorEq, false_and, false_imp_iff, implies_true, and_true, not_or]
    grind
  | goto name =>
    simp only [Fine, within, Leaves, Mark.goto.injEq, List.find?_append]
    cases hfind : around.find? fun e => e.holds name with
    | some found =>
      have hholds := List.find?_some hfind
      simp only [Option.some_or, Option.some.injEq, forall_eq']
      refine ⟨fun h => ⟨h, ?_⟩, fun h => h.1⟩
      rintro _ ⟨rfl, hnone⟩
      simp [hnone found (List.mem_of_find?_eq_some hfind)] at hholds
    | none =>
      have hnone : ∀ e ∈ around, e.holds name = false := fun e he => by
        simpa using List.find?_eq_none.mp hfind e he
      simp only [Option.none_or, reduceCtorEq, false_imp_iff, implies_true, true_and,
        List.find?_singleton]
      constructor
      · rintro h _ ⟨rfl, -⟩ hafter
        exact h e (by simp [Enclosure.holds, hafter])
      · intro h e' he'
        split at he'
        next hholds =>
          cases he'
          simp only [Enclosure.holds, Bool.or_eq_true, List.contains_iff_mem] at hholds
          rcases hholds with hbefore | hafter
          · exact .inl hbefore
          · exact h name ⟨rfl, hnone⟩ hafter
        next => cases he'

/-- Only statements that declare nothing have jumps and labels inside. -/
theorem declared_of_mem_ofStmt {s : Stmt} {p : Place} (h : p ∈ ofStmt s) : s.declared = [] := by
  cases s with
  | locals => simp [ofStmt] at h
  | localFunction => simp [ofStmt] at h
  | _ => rfl

/-- The jumps that leave the statements of a block from one of them on. -/
theorem exists_leaves_cons {kind : Kind} {before rest : List Stmt} {s : Stmt} {name : String} :
    (∃ p ∈ ofBlock kind before (s :: rest), p.Leaves name) ↔
      ((∃ p ∈ ofStmt s, p.Leaves name) ∧ name ∉ labels before ∧ name ∉ labels rest) ∨
        ∃ p ∈ ofBlock kind (before ++ [s]) rest, p.Leaves name := by
  have hholds : Enclosure.holds ⟨kind, before, rest⟩ name = false ↔
      name ∉ labels before ∧ name ∉ labels rest := by
    simp [Enclosure.holds]
  simp only [ofBlock, List.mem_append, or_and_right, exists_or]
  refine or_congr ⟨?_, ?_⟩ Iff.rfl
  · rintro ⟨p, hp, hleaves⟩
    obtain ⟨p, hmem, rfl⟩ := List.mem_map.mp hp
    obtain ⟨hleaves, hnot⟩ := (p.leaves_within _ _).mp hleaves
    exact ⟨⟨p, hmem, hleaves⟩, hholds.mp hnot⟩
  · rintro ⟨⟨p, hp, hleaves⟩, hnot⟩
    exact ⟨_, List.mem_map_of_mem hp, (p.leaves_within _ _).mpr ⟨hleaves, hholds.mpr hnot⟩⟩

/-- A label behind a statement of a block is one of the places there. -/
theorem fine_of_mem_labels {kind : Kind} {before rest : List Stmt} {inLoop : Bool}
    {seen : List String} {name : String}
    (h : ∀ p ∈ ofBlock kind before rest, p.Fine inLoop seen) (hname : name ∈ labels rest) :
    name ∉ seen := by
  induction rest generalizing before with
  | nil => simp [labels] at hname
  | cons s rest ih =>
    simp only [ofBlock, List.mem_append, or_imp, forall_and] at h
    by_cases hs : s.labelName? = some name
    · cases s with
      | label n line =>
        cases hs
        exact (h.1 ⟨.label name, [⟨kind, before, rest⟩]⟩ (by simp [ofStmt, Place.within])).1
      | _ => cases hs
    · refine ih h.2 ?_
      obtain ⟨s', hs', heq⟩ := List.mem_filterMap.mp hname
      rcases List.mem_cons.mp hs' with rfl | hs'
      · exact absurd heq hs
      · exact List.mem_filterMap.mpr ⟨s', hs', heq⟩

/-- What is nested in some places of a program is lawful. -/
def Nested (sites : List Site) : Prop := ∀ body ∈ sites.filterMap body?, Lawful body

@[simp] theorem nested_nil : Nested [] := by simp [Nested]

@[simp] theorem nested_append (first second : List Site) :
    Nested (first ++ second) ↔ Nested first ∧ Nested second := by
  simp only [Nested, List.filterMap_append, List.mem_append, or_imp, forall_and]

theorem nested_name (env : Surroundings) (name : String) : Nested [.name env name] := by
  simp [Nested, body?]

theorem nested_exit (env : Surroundings) : Nested [.exit env] := by
  simp [Nested, body?]

theorem nested_targets (es : List Expr) (sites : List Site) :
    Nested (es.map .target ++ sites) ↔ Nested sites := by
  have htargets : Nested (es.map .target) := by
    simp [Nested, body?, List.filterMap_map]
  simp [htargets]

theorem nested_function (env : Surroundings) (name : String) (params : List Binder)
    (variadic : Bool) (body : Block) (line endLine : Nat) (sites : List Site) :
    Nested (.function env (.mk name params variadic body line endLine) :: sites) ↔
      Lawful body ∧ Nested sites := by
  simp [Nested, body?]

/-! ## Actions that succeed just where a claim is true -/

open Capture

/-- Where the claim is true the action succeeds, with this of the state after it; elsewhere it
fails. -/
def Judges (a : State) (claim : Prop) (R : State → Prop) (act : Analysis Unit) : Prop :=
  match act a with
  | .ok _ a' => claim ∧ R a'
  | .error _ _ => ¬ claim

section Judging

variable {a a' : State} {claim claim' : Prop} {R R' : State → Prop} {act act' : Analysis Unit}

theorem Judges.of_ok {u : Unit} {b : State} (h : act a = .ok u b) (hclaim : claim) (hR : R b) :
    Judges a claim R act := by
  unfold Judges
  rw [h]
  exact ⟨hclaim, hR⟩

theorem Judges.of_error (h : ∃ e a', act a = .error e a') (hclaim : ¬ claim) :
    Judges a claim R act := by
  obtain ⟨e, a', h⟩ := h
  unfold Judges
  rw [h]
  exact hclaim

theorem Judges.congr (h : Judges a claim R act) (hclaim : claim ↔ claim')
    (hR : ∀ a', claim → R a' → R' a') : Judges a claim' R' act := by
  unfold Judges at *
  cases hact : act a with
  | ok u a' =>
    rw [hact] at h
    exact ⟨hclaim.mp h.1, hR a' h.1 h.2⟩
  | error e a' =>
    rw [hact] at h
    exact fun hc => h (hclaim.mpr hc)

/-- The second action judges the whole where the first one did not fail. -/
theorem Judges.andThen (h : Judges a claim R act) (hwhole : claim' → claim)
    (h' : ∀ a', claim → R a' → Judges a' claim' R' act') :
    Judges a claim' R' (do act; act') := by
  unfold Judges at h
  cases hact : act a with
  | ok u a' =>
    rw [hact] at h
    have hsecond := h' a' h.1 h.2
    unfold Judges at *
    rwa [bind_of_ok hact]
  | error e a' =>
    rw [hact] at h
    exact .of_error ⟨e, a', bind_of_error hact⟩ fun hc => h (hwhole hc)

theorem judges_ok {claim : Prop} {R : State → Prop} {act : Analysis Unit} :
    (∃ u a', act a = .ok u a' ∧ R a') → claim → Judges a claim R act :=
  fun ⟨_, _, h, hR⟩ hclaim => .of_ok h hclaim hR

end Judging

/-! ## Where the analysis is -/

/-- The names of the labels that are seen. -/
def names (blocks : List OpenBlock) : List String :=
  blocks.flatMap fun b => b.labels.map (·.name)

/-- The analysis is in a block of a function and sees some variables of this function. What waits in
the block stands in it, or in a block inside of it that has ended. -/
structure Here (start loops : Nat) (b : OpenBlock) (bs : List OpenBlock) (fs : List OpenFunction)
    (n : Nat) (a : State) : Prop where
  functions : a.functions = ⟨start, loops, b :: bs⟩ :: fs
  size : a.bindings.length = start + n
  level : b.level ≤ n
  waiting : ∀ g ∈ b.gotos, b.level ≤ g.level ∧ g.level ≤ n

/-- The same variables are in scope, in the same blocks with the same labels and jumps. -/
def Same (a a' : State) : Prop :=
  a'.functions = a.functions ∧ a'.bindings.length = a.bindings.length

/-- An action that reads what does not belong to the blocks around it. -/
def Passes (sites : List Site) (act : Analysis Unit) : Prop :=
  ∀ a, Judges a (Nested sites) (Same a) act

/-- An action that reads a part of a block with these places in it, and leaves some more variables
in scope. The jumps that leave the part wait behind it. -/
def Reads (places : List Place) (sites : List Site) (declared : Nat) (act : Analysis Unit) : Prop :=
  ∀ start loops b bs fs n a, Here start loops b bs fs n a →
    Judges a
      ((∀ p ∈ places, p.Fine (decide (0 < loops)) (names (b :: bs))) ∧ Nested sites)
      (fun a' => ∃ more : List PendingGoto,
        Here start loops { b with gotos := b.gotos ++ more } bs fs (n + declared) a' ∧
          (∀ g ∈ more, g.level = n) ∧
          ∀ name, name ∈ more.map (·.name) ↔
            name ∉ names (b :: bs) ∧ ∃ p ∈ places, p.Leaves name)
      act

section Rules

variable {a a' : State} {places places' : List Place} {sites sites' : List Site}
  {declared : Nat} {act act' : Analysis Unit}

theorem Same.trans {a'' : State} (h : Same a a') (h' : Same a' a'') : Same a a'' :=
  ⟨h'.1.trans h.1, h'.2.trans h.2⟩

theorem Passes.skip : Passes [] (pure ()) := fun a =>
  .of_ok (u := ()) (b := a) rfl nested_nil ⟨rfl, rfl⟩

theorem Passes.andThen (h : Passes sites act) (h' : Passes sites' act') :
    Passes (sites ++ sites') (do act; act') := by
  intro a
  refine (h a).andThen (fun hw => (nested_append ..).mp hw |>.1) fun a₁ hfirst hsame => ?_
  refine (h' a₁).congr ?_ fun a₂ _ hsame' => hsame.trans hsame'
  rw [nested_append]
  exact ⟨fun hsecond => ⟨hfirst, hsecond⟩, fun hw => hw.2⟩

theorem Here.same {start loops n : Nat} {b : OpenBlock} {bs : List OpenBlock}
    {fs : List OpenFunction} (h : Here start loops b bs fs n a) (hsame : Same a a') :
    Here start loops b bs fs n a' :=
  ⟨hsame.1.trans h.functions, hsame.2.trans h.size, h.level, h.waiting⟩

theorem Passes.reads (h : Passes sites act) : Reads [] sites 0 act := by
  intro start loops b bs fs n a hhere
  refine (h a).congr (by simp) fun a' _ hsame => ⟨[], ?_, by simp, by simp⟩
  rw [List.append_nil]
  exact hhere.same hsame

/-- Two parts of a block, of which the first one declares nothing. -/
theorem Reads.andThen (h : Reads places sites 0 act) (h' : Reads places' sites' declared act') :
    Reads (places ++ places') (sites ++ sites') declared (do act; act') := by
  intro start loops b bs fs n a hhere
  refine (h _ _ _ _ _ _ _ hhere).andThen
    (fun hw => ⟨fun p hp => hw.1 p (List.mem_append_left _ hp), ((nested_append ..).mp hw.2).1⟩) ?_
  rintro a₁ hfirst ⟨more, hhere₁, hlevel, hmore⟩
  refine (h' _ _ _ _ _ _ _ hhere₁).congr ?_ ?_
  · simp only [List.mem_append, or_imp, forall_and, nested_append]
    exact ⟨fun hsecond => ⟨⟨hfirst.1, hsecond.1⟩, hfirst.2, hsecond.2⟩,
      fun hw => ⟨hw.1.2, hw.2.2⟩⟩
  · rintro a₂ - ⟨more', hhere₂, hlevel', hmore'⟩
    refine ⟨more ++ more', by rwa [← List.append_assoc], fun g hg => ?_, fun name => ?_⟩
    · rcases List.mem_append.mp hg with hg | hg
      · exact hlevel g hg
      · exact hlevel' g hg
    · rw [List.map_append, List.mem_append, hmore, hmore']
      simp only [List.mem_append, or_and_right, exists_or]
      change (_ ∧ _) ∨ (name ∉ names (b :: bs) ∧ _) ↔ _
      rw [and_or_left]

/-- Variables are declared, and then something is read that sees them. -/
theorem Reads.pass (h : Reads [] [] declared act) (h' : Passes sites act') :
    Reads [] sites declared (do act; act') := by
  intro start loops b bs fs n a hhere
  refine (h _ _ _ _ _ _ _ hhere).andThen (fun _ => by simp) ?_
  rintro a₁ - ⟨more, hhere₁, hlevel, hmore⟩
  refine (h' a₁).congr (by simp) fun a₂ _ hsame => ⟨more, hhere₁.same hsame, hlevel, hmore⟩

theorem Reads.cast (h : Reads places sites declared act) (hplaces : places = places')
    (hsites : sites = sites') (hact : act = act') : Reads places' sites' declared act' := by
  subst hplaces hsites hact
  exact h

end Rules

/-! ## Variables, blocks and functions -/

theorem declareAll_same (bs : List Binder) (a : State) :
    ∃ a', declareAll bs a = .ok () a' ∧ a'.functions = a.functions ∧
      a'.bindings.length = a.bindings.length + bs.length := by
  induction bs generalizing a with
  | nil => exact ⟨a, rfl, rfl, rfl⟩
  | cons b bs ih =>
    obtain ⟨a', h, hfunctions, hlength⟩ :=
      ih { a with bindings := ⟨b.name, b.number, a.functions.length⟩ :: a.bindings }
    refine ⟨a', ?_, hfunctions, ?_⟩
    · simp only [declareAll, List.forM_eq_forM, List.forM_cons, bind_ok] at h ⊢
      exact ⟨(), _, rfl, h⟩
    · simp only [hlength, List.length_cons]
      omega

theorem Here.more {start loops n : Nat} {b : OpenBlock} {bs : List OpenBlock}
    {fs : List OpenFunction} {a a' : State} {count : Nat} (h : Here start loops b bs fs n a)
    (hfunctions : a'.functions = a.functions)
    (hlength : a'.bindings.length = a.bindings.length + count) :
    Here start loops b bs fs (n + count) a' := by
  refine ⟨hfunctions.trans h.functions, by rw [hlength, h.size]; omega, ?_, fun g hg => ?_⟩
  · have := h.level
    omega
  · have := h.waiting g hg
    omega

theorem declareAll_reads (bs : List Binder) : Reads [] [] bs.length (declareAll bs) := by
  intro start loops b bs' fs n a hhere
  obtain ⟨a', h, hfunctions, hlength⟩ := declareAll_same bs a
  refine .of_ok h (by simp) ⟨[], ?_, by simp, by simp⟩
  rw [List.append_nil]
  exact hhere.more hfunctions hlength

section Blocks

variable {start loops n m : Nat} {b b' : OpenBlock} {bs : List OpenBlock} {fs : List OpenFunction}
  {a a' : State}

theorem Here.openBlock (h : Here start loops b bs fs n a) (isLoop : Bool) :
    ∃ a', openBlock isLoop a = .ok () a' ∧
      Here start (if isLoop then loops + 1 else loops) ⟨n, isLoop, [], []⟩ (b :: bs) fs n a' := by
  refine ⟨{ a with functions := ⟨start, if isLoop then loops + 1 else loops,
    ⟨n, isLoop, [], []⟩ :: b :: bs⟩ :: fs }, ?_, ⟨rfl, h.size, Nat.le_refl n, by simp⟩⟩
  have hn : a.bindings.length - start = n := by
    rw [h.size]
    omega
  obtain ⟨bindings, functions, captured⟩ := a
  obtain rfl : functions = _ := h.functions
  subst hn
  rfl

/-- What waits in a block that ends waits on in the block around it. -/
theorem Here.closeBlock (h : Here start loops b' (b :: bs) fs m a) (hlevel : b'.level = n)
    (hle : b.level ≤ n) (hwaiting : ∀ g ∈ b.gotos, b.level ≤ g.level ∧ g.level ≤ n) :
    ∃ a', closeBlock a = .ok () a' ∧
      Here start (if b'.isLoop then loops - 1 else loops)
        { b with gotos := b.gotos ++ b'.gotos.map fun g => { g with level := min g.level n } }
        bs fs n a' := by
  subst hlevel
  refine ⟨⟨a.bindings.drop (a.bindings.length - (start + b'.level)),
    ⟨start, if b'.isLoop then loops - 1 else loops, { b with
      gotos := b.gotos ++ b'.gotos.map fun g => { g with level := min g.level b'.level } } :: bs⟩ ::
      fs, a.captured⟩,
    ?_, ⟨rfl, ?_, hle, ?_⟩⟩
  · obtain ⟨bindings, functions, captured⟩ := a
    obtain rfl : functions = _ := h.functions
    rfl
  · have := h.level
    have := h.size
    simp only [List.length_drop]
    omega
  · intro g hg
    rcases List.mem_append.mp hg with hg | hg
    · exact hwaiting g hg
    · obtain ⟨g', hg', rfl⟩ := List.mem_map.mp hg
      have := h.waiting g' hg'
      simp only
      omega

/-- The outermost block of a function ends if nothing waits in it. -/
theorem Here.closeFunction (h : Here start loops b' [] fs m a) (hlevel : b'.level = 0) :
    Judges a (b'.gotos = []) (fun a' => a'.functions = fs ∧ a'.bindings.length = start)
      closeFunction := by
  obtain ⟨bindings, functions, captured⟩ := a
  obtain rfl : functions = _ := h.functions
  obtain ⟨level, isLoop, labels, gotos⟩ := b'
  obtain rfl : level = 0 := hlevel
  have hsize : bindings.length = start + m := h.size
  cases gotos with
  | nil =>
    refine .of_ok (u := ()) (b := ⟨bindings.drop (bindings.length - (start + 0)), fs, captured⟩)
      rfl rfl ⟨rfl, ?_⟩
    simp only [List.length_drop]
    omega
  | cons g gs => exact .of_error ⟨_, _, rfl⟩ (by simp)

end Blocks

/-! ## Labels and jumps -/

section Marks

variable {start loops n : Nat} {b : OpenBlock} {bs : List OpenBlock} {fs : List OpenFunction}
  {a : State}

theorem find?_names {blocks : List OpenBlock} {name : String} :
    ((blocks.flatMap fun b => b.labels).find? fun l => l.name == name) = none ↔
      name ∉ names blocks := by
  simp [names, List.find?_eq_none, List.mem_flatMap, List.mem_map]

/-- A label is a new one for the blocks around it, and the jumps that wait for it see no fewer
variables than it does. -/
theorem Here.declareLabel (h : Here start loops b bs fs n a) (name : String) (line : Nat)
    (atEnd : Bool) :
    Judges a
      (name ∉ names (b :: bs) ∧
        ∀ g ∈ b.gotos, g.name = name → atEnd = true ∨ n ≤ g.level)
      (Here start loops
        { b with
          labels := b.labels ++ [⟨name, line, if atEnd then b.level else n⟩]
          gotos := b.gotos.filter fun g => g.name != name } bs fs n)
      (declareLabel name line atEnd) := by
  have hn : a.bindings.length - start = n := by
    rw [h.size]
    omega
  have hlevel : ∀ f : Nat → Analysis Unit,
      (if atEnd then (do f (← pure b.level)) else (do f (← Capture.level)) : Analysis Unit) a =
        f (if atEnd then b.level else n) a := by
    intro f
    cases atEnd with
    | true => rfl
    | false =>
      change f (a.bindings.length - (a.functions.headD _).start) a = _
      rw [h.functions, List.headD_cons, hn]
      rfl
  have hfn : currentFunction a = .ok ⟨start, loops, b :: bs⟩ a := by
    change EStateM.Result.ok (a.functions.headD _) a = _
    rw [h.functions, List.headD_cons]
  have hblock : currentBlock a = .ok b a := by
    rw [currentBlock, bind_of_ok hfn]
    rfl
  rw [Capture.declareLabel]
  cases hseen : ((b :: bs).flatMap fun b => b.labels).find? fun l => l.name == name with
  | some l =>
    refine .of_error ?_ fun hc => ?_
    · simp only [bind_of_ok hfn, hseen]
      exact ⟨_, _, rfl⟩
    · rw [find?_names.2 hc.1] at hseen
      cases hseen
  | none =>
    cases hwaits : b.gotos.find? fun g =>
        g.name == name && g.level < if atEnd then b.level else n with
    | some g =>
      refine .of_error ?_ fun hc => ?_
      · simp only [bind_of_ok hfn, hseen, bind_of_ok hblock, hlevel, hwaits]
        exact ⟨_, _, rfl⟩
      · have hg := List.find?_some hwaits
        simp only [Bool.and_eq_true, beq_iff_eq, decide_eq_true_eq] at hg
        have hmem := List.mem_of_find?_eq_some hwaits
        have hlow := h.waiting g hmem
        cases atEnd with
        | true => exact absurd hg.2 (by simpa using hlow.1)
        | false =>
          have hge := hc.2 g hmem hg.1
          simp only [Bool.false_eq_true, if_false, false_or] at hg hge
          omega
    | none =>
      refine .of_ok (u := ()) (b := { a with functions := ⟨start, loops, { b with
          labels := b.labels ++ [⟨name, line, if atEnd then b.level else n⟩]
          gotos := b.gotos.filter fun g => g.name != name } :: bs⟩ :: fs }) ?_
        ⟨find?_names.mp hseen, fun g hg hname => ?_⟩
        ⟨rfl, h.size, h.level, fun g hg => h.waiting g (List.mem_filter.mp hg).1⟩
      · simp only [bind_of_ok hfn, hseen, bind_of_ok hblock, hlevel, hwaits]
        change EStateM.Result.ok () { a with functions := a.functions.modifyHead _ } = _
        rw [h.functions]
        rfl
      · have hge := List.find?_eq_none.mp hwaits g hg
        cases atEnd with
        | true => exact .inl rfl
        | false => simpa [hname] using hge

/-- A jump to a label that is not seen yet waits. -/
theorem Here.jumpTo (h : Here start loops b bs fs n a) (name : String) (line : Nat) :
    ∃ a', jumpTo name line a = .ok () a' ∧ ∃ more : List PendingGoto,
      Here start loops { b with gotos := b.gotos ++ more } bs fs n a' ∧
        (∀ g ∈ more, g.level = n) ∧
        ∀ name', name' ∈ more.map (·.name) ↔ name' ∉ names (b :: bs) ∧ name' = name := by
  have hfn : currentFunction a = .ok ⟨start, loops, b :: bs⟩ a := by
    change EStateM.Result.ok (a.functions.headD _) a = _
    rw [h.functions, List.headD_cons]
  have hlevel : Capture.level a = .ok n a := by
    change EStateM.Result.ok (a.bindings.length - (a.functions.headD _).start) a = _
    rw [h.functions, List.headD_cons, h.size, Nat.add_sub_cancel_left]
  have hany : ((b :: bs).any fun b => b.labels.any fun l => l.name == name) = true ↔
      name ∈ names (b :: bs) := by
    simp [names, List.mem_flatMap, List.mem_map]
  rw [Capture.jumpTo, bind_of_ok hfn]
  by_cases hseen : name ∈ names (b :: bs)
  · refine ⟨a, ?_, [], by simpa using h, by simp, fun name' => ?_⟩
    · rw [if_pos (hany.mpr hseen)]
      rfl
    · simp only [List.map_nil, List.not_mem_nil, false_iff, not_and]
      rintro hnot rfl
      exact hnot hseen
  · refine ⟨{ a with functions := ⟨start, loops, { b with
        gotos := b.gotos ++ [⟨name, line, n⟩] } :: bs⟩ :: fs }, ?_, [⟨name, line, n⟩],
      ⟨rfl, h.size, h.level, fun g hg => ?_⟩, by simp, fun name' => ?_⟩
    · rw [if_neg (mt hany.mp hseen), bind_of_ok hlevel]
      change EStateM.Result.ok () { a with functions := a.functions.modifyHead _ } = _
      rw [h.functions]
      rfl
    · rcases List.mem_append.mp hg with hg | hg
      · exact h.waiting g hg
      · rw [List.mem_singleton] at hg
        subst hg
        exact ⟨h.level, Nat.le_refl n⟩
    · simp only [List.map_cons, List.map_nil, List.mem_singleton]
      constructor
      · rintro rfl
        exact ⟨hseen, rfl⟩
      · exact fun hn => hn.2

end Marks

theorem jumpTo_reads (name : String) (line : Nat) :
    Reads [⟨.goto name, []⟩] [] 0 (jumpTo name line) := by
  intro start loops b bs fs n a hhere
  obtain ⟨a', h, more, hhere', hlevel, hmore⟩ := hhere.jumpTo name line
  refine .of_ok h (by simp [Place.Fine]) ⟨more, hhere', hlevel, fun name' => ?_⟩
  simp [hmore, Place.Leaves, eq_comm (a := name)]

theorem leaveLoop_reads (env : Surroundings) (line : Nat) :
    Reads [⟨.exit, []⟩] [.exit env] 0 (leaveLoop line) := by
  intro start loops b bs fs n a hhere
  have hfn : currentFunction a = .ok ⟨start, loops, b :: bs⟩ a := by
    change EStateM.Result.ok (a.functions.headD _) a = _
    rw [hhere.functions, List.headD_cons]
  have hclaim : (∀ p ∈ [(⟨.exit, []⟩ : Place)], p.Fine (decide (0 < loops)) (names (b :: bs))) ↔
      0 < loops := by
    simp [Place.Fine]
  rw [leaveLoop]
  by_cases hloops : loops = 0
  · refine .of_error ?_ fun hc => ?_
    · simp only [bind_of_ok hfn, hloops, if_true]
      exact ⟨_, _, rfl⟩
    · exact absurd (hclaim.mp hc.1) (by omega)
  · refine .of_ok (u := ()) (b := a) ?_ ⟨hclaim.mpr (by omega), nested_exit env⟩
      ⟨[], by simpa using hhere, by simp, by simp [Place.Leaves]⟩
    rw [bind_of_ok hfn, if_neg hloops]
    rfl

end Jumps
end LuaMachine
