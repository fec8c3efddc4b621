import LuaMachine.Proofs.Jumps.Judging
/-! # The analysis accepts what the rules allow

The statements of a block are read one after the other, so what the block claims is what each of
them claims of the blocks around it and of what waits in front of it.

* `Jumps.ReadsRest`: the statements of a block from one of them on.
* `Jumps.stmt_reads`, `Jumps.stmts_reads`: the induction over trees.
* `capturedBinders_iff`: a program is accepted just if the places of its functions are legal.
-/
set_option autoImplicit false

namespace LuaMachine
namespace Jumps

open Capture

/-! ## Blocks -/

/-- From this statement of a block on, a label stands in front of which a variable of the block is
declared that the jump does not see, and the label is not beyond that variable. -/
def Blocked (kind : Kind) (n : Nat) (rest : List Stmt) (g : PendingGoto) : Prop :=
  ∃ between line tail, rest = between ++ .label g.name line :: tail ∧ g.name ∉ labels between ∧
    g.level < n + (between.flatMap Stmt.declared).length ∧
    (kind = .repeats ∨ tail.all Stmt.isLabel = false)

theorem blocked_cons {kind : Kind} {n : Nat} {s : Stmt} {rest : List Stmt} {g : PendingGoto}
    (hs : s.labelName? ≠ some g.name) :
    Blocked kind n (s :: rest) g ↔ Blocked kind (n + s.declared.length) rest g := by
  constructor
  · rintro ⟨between, line, tail, heq, hnot, hlt, hend⟩
    cases between with
    | nil =>
      obtain ⟨rfl, -⟩ := List.cons.inj heq
      exact absurd rfl hs
    | cons s' between =>
      obtain ⟨rfl, rfl⟩ := List.cons.inj heq
      refine ⟨between, line, tail, rfl, fun hmem => hnot ?_, ?_, hend⟩
      · obtain ⟨s', hs', hname⟩ := List.mem_filterMap.mp hmem
        exact List.mem_filterMap.mpr ⟨s', List.mem_cons_of_mem _ hs', hname⟩
      · rw [List.flatMap_cons, List.length_append] at hlt
        omega
  · rintro ⟨between, line, tail, rfl, hnot, hlt, hend⟩
    refine ⟨s :: between, line, tail, rfl, fun hmem => ?_, ?_, hend⟩
    · obtain ⟨s', hs', hname⟩ := List.mem_filterMap.mp hmem
      rcases List.mem_cons.mp hs' with rfl | hs'
      · exact hs hname
      · exact hnot (List.mem_filterMap.mpr ⟨s', hs', hname⟩)
    · rw [List.flatMap_cons, List.length_append]
      omega

theorem blocked_label {kind : Kind} {n line : Nat} {rest : List Stmt} {g : PendingGoto} :
    Blocked kind n (.label g.name line :: rest) g ↔
      g.level < n ∧ (kind = .repeats ∨ rest.all Stmt.isLabel = false) := by
  constructor
  · rintro ⟨between, line', tail, heq, hnot, hlt, hend⟩
    cases between with
    | nil =>
      obtain ⟨-, rfl⟩ := List.cons.inj heq
      exact ⟨by simpa using hlt, hend⟩
    | cons s between =>
      obtain ⟨rfl, -⟩ := List.cons.inj heq
      exact absurd (by simp [labels, Stmt.labelName?]) hnot
  · rintro ⟨hlt, hend⟩
    exact ⟨[], line, rest, rfl, by simp [labels], by simpa using hlt, hend⟩

/-- A jump that stands directly in front of these statements is blocked if it skips a variable. -/
theorem blocked_iff_skips {kind : Kind} {before rest : List Stmt} {g : PendingGoto} :
    Blocked kind g.level rest g ↔ Enclosure.Skips ⟨kind, before, rest⟩ g.name := by
  have hlt : ∀ between : List Stmt, g.level < g.level + (between.flatMap Stmt.declared).length ↔
      between.flatMap Stmt.declared ≠ [] := fun between => by
    rw [← List.length_pos_iff]
    omega
  simp only [Blocked, Enclosure.Skips, hlt]

/-- What the statements of a block claim, with some statements of the block before them, and jumps
that wait in the block. -/
structure Claim (env : Surroundings) (kind : Kind) (before rest : List Stmt) (inLoop : Bool)
    (seen : List String) (n : Nat) (waiting : List PendingGoto) : Prop where
  fine : ∀ p ∈ ofBlock kind before rest, p.Fine inLoop seen
  nested : Nested (Sites.stmts env rest)
  free : ∀ g ∈ waiting, ¬ Blocked kind n rest g

/-- How the statements of a block leave it. -/
structure Left (start loops : Nat) (b : OpenBlock) (bs : List OpenBlock) (fs : List OpenFunction)
    (kind : Kind) (before rest : List Stmt) (n : Nat) (a' : State) (b' : OpenBlock) : Prop where
  here : Here start loops b' bs fs (n + (rest.flatMap Stmt.declared).length) a'
  level : b'.level = b.level
  isLoop : b'.isLoop = b.isLoop
  waiting : ∀ name, name ∈ b'.gotos.map (·.name) ↔
    (name ∈ b.gotos.map (·.name) ∧ name ∉ labels rest) ∨
      (name ∉ names bs ∧ ∃ p ∈ ofBlock kind before rest, p.Leaves name)

/-- An action that reads the statements of a block from one of them on. -/
def ReadsRest (env : Surroundings) (kind : Kind) (before rest : List Stmt)
    (act : Analysis Unit) : Prop :=
  ∀ start loops b bs fs n a inLoop, Here start loops b bs fs n a →
    (∀ name, name ∈ b.labels.map (·.name) ↔ name ∈ labels before) →
    (decide (0 < loops) = (inLoop || kind.isLoop)) →
    Judges a (Claim env kind before rest inLoop (names bs) n b.gotos)
      (fun a' => ∃ b', Left start loops b bs fs kind before rest n a' b') act

theorem ReadsRest.nil (env : Surroundings) (kind : Kind) (before : List Stmt) :
    ReadsRest env kind before [] (pure ()) := by
  intro start loops b bs fs n a inLoop hhere _ _
  refine .of_ok (u := ()) (b := a) rfl ⟨by simp [ofBlock], by simp [Sites.stmts], ?_⟩
    ⟨b, by simpa using hhere, rfl, rfl, by simp [ofBlock, labels]⟩
  rintro g - ⟨between, line, tail, heq, -⟩
  simp at heq

/-- A label, and then the further statements. -/
theorem ReadsRest.label {env : Surroundings} {kind : Kind} {before rest : List Stmt}
    {name : String} {line : Nat} {act : Analysis Unit} {ends : Bool}
    (hends : ends = decide (kind ≠ .repeats))
    (h : ReadsRest env kind (before ++ [.label name line]) rest act) :
    ReadsRest env kind before (.label name line :: rest)
      (do declareLabel name line (ends && rest.all Stmt.isLabel); act) := by
  intro start loops b bs fs n a inLoop hhere hbefore hloop
  have hseen : ∀ name', name' ∈ names (b :: bs) ↔ name' ∈ labels before ∨ name' ∈ names bs :=
    fun name' => by rw [← hbefore name']; simp [names]
  have hfine : Place.Fine inLoop (names bs) ⟨.label name, [⟨kind, before, rest⟩]⟩ ↔
      name ∉ names (b :: bs) := by
    rw [hseen]
    simp [Place.Fine, and_comm]
  have hblocked : ∀ g ∈ b.gotos, g.name = name →
      (¬ Blocked kind n (.label name line :: rest) g ↔
        (ends && rest.all Stmt.isLabel) = true ∨ n ≤ g.level) := by
    rintro g - rfl
    rw [blocked_label, hends]
    by_cases hkind : kind = .repeats <;> cases rest.all Stmt.isLabel <;> simp [hkind]
  refine (hhere.declareLabel name line _).andThen (fun hw => ?_) fun a₁ hfirst hhere₁ => ?_
  · have hlabel := hw.fine ⟨.label name, [⟨kind, before, rest⟩]⟩
      (by simp [ofBlock, ofStmt, Place.within])
    exact ⟨hfine.mp hlabel, fun g hg hname => (hblocked g hg hname).mp (hw.free g hg)⟩
  · refine (h _ _ _ _ _ _ _ inLoop hhere₁ (fun name' => ?_) hloop).congr ?_ ?_
    · rw [List.map_append, List.mem_append, hbefore, mem_labels_append]
      simp [Stmt.labelName?, eq_comm (a := name)]
    · constructor
      · rintro ⟨hfines, hnested, hfree⟩
        refine ⟨?_, by simpa [Sites.stmts, Sites.stmt, Stmt.declared] using hnested, fun g hg => ?_⟩
        · simp only [ofBlock, ofStmt, List.map_cons, List.map_nil, List.singleton_append,
            List.mem_cons, forall_eq_or_imp]
          exact ⟨hfine.mpr hfirst.1, hfines⟩
        · by_cases hname : g.name = name
          · exact (hblocked g hg hname).mpr (hfirst.2 g hg hname)
          · rw [blocked_cons (by simpa [Stmt.labelName?] using fun h => hname h.symm)]
            exact hfree g (List.mem_filter.mpr ⟨hg, by simpa using hname⟩)
      · rintro ⟨hfines, hnested, hfree⟩
        refine ⟨fun p hp => hfines p ?_, ?_, fun g hg => ?_⟩
        · rw [ofBlock]
          exact List.mem_append_right _ hp
        · simpa [Sites.stmts, Sites.stmt, Stmt.declared] using hnested
        · obtain ⟨hg, hname⟩ := List.mem_filter.mp hg
          have hname : g.name ≠ name := by simpa using hname
          have hopen := hfree g hg
          rwa [blocked_cons (by simpa [Stmt.labelName?] using fun h => hname h.symm)] at hopen
    · rintro a₂ - ⟨b', hleft⟩
      refine ⟨b', ?_, hleft.level, hleft.isLoop, fun name' => ?_⟩
      · simpa [Stmt.declared] using hleft.here
      · rw [hleft.waiting, mem_labels_cons]
        simp only [ofBlock, ofStmt, List.map_cons, List.map_nil, List.singleton_append,
          List.mem_cons, exists_eq_or_imp, List.mem_map, List.mem_filter]
        have hnot : ¬ (Place.within ⟨kind, before, rest⟩ ⟨.label name, []⟩).Leaves name' :=
          fun h => by simp [Place.Leaves, Place.within] at h
        have hmark : Stmt.labelName? (.label name line) = some name' ↔ name = name' := by
          simp [Stmt.labelName?]
        simp only [hnot, false_or, hmark, bne_iff_ne]
        grind

/-- A statement that is no label, and then the further statements. -/
theorem ReadsRest.cons {env : Surroundings} {kind : Kind} {before rest : List Stmt} {s : Stmt}
    {act act' : Analysis Unit} (hs : s.labelName? = none)
    (h : Reads (ofStmt s) (Sites.stmt env s) s.declared.length act)
    (h' : ReadsRest (env.declare s.declared) kind (before ++ [s]) rest act') :
    ReadsRest env kind before (s :: rest) (do act; act') := by
  intro start loops b bs fs n a inLoop hhere hbefore hloop
  have hseen : ∀ name, name ∈ names (b :: bs) ↔ name ∈ labels before ++ names bs :=
    fun name => by rw [List.mem_append, ← hbefore name]; simp [names]
  have hwithin : ∀ p : Place, (p.within ⟨kind, before, rest⟩).Fine inLoop (names bs) ↔
      p.Fine (decide (0 < loops)) (names (b :: bs)) ∧ ∀ name, p.Leaves name →
        name ∈ labels rest → name ∈ labels before ∨ ¬ Enclosure.Skips ⟨kind, before, rest⟩ name :=
    fun p => by rw [p.fine_within, hloop, p.fine_congr _ hseen]
  have hplaces : ∀ p ∈ ofStmt s, p.within ⟨kind, before, rest⟩ ∈ ofBlock kind before (s :: rest) :=
    fun p hp => List.mem_append_left _ (List.mem_map_of_mem hp)
  have hsites : Nested (Sites.stmts env (s :: rest)) ↔ Nested (Sites.stmt env s) ∧
      Nested (Sites.stmts (env.declare s.declared) rest) := by
    rw [Sites.stmts, nested_append]
  have hnext : ∀ g, Blocked kind n (s :: rest) g ↔ Blocked kind (n + s.declared.length) rest g :=
    fun g => blocked_cons (by simp [hs])
  refine (h _ _ _ _ _ _ _ hhere).andThen
    (fun hw => ⟨fun p hp => ((hwithin p).mp (hw.fine _ (hplaces p hp))).1, (hsites.mp hw.nested).1⟩)
    ?_
  rintro a₁ ⟨hfine, hnested⟩ ⟨more, hhere₁, hlevel, hmore⟩
  -- what waits now comes from places of the statement, and then it declares nothing
  have hskips : ∀ g ∈ more,
      (Blocked kind (n + s.declared.length) rest g ↔
        Enclosure.Skips ⟨kind, before, rest⟩ g.name) := fun g hg => by
    obtain ⟨-, p, hp, -⟩ := (hmore g.name).mp (List.mem_map_of_mem hg)
    rw [declared_of_mem_ofStmt hp, List.length_nil, Nat.add_zero, ← hlevel g hg, blocked_iff_skips]
  refine (h' _ _ _ _ _ _ _ inLoop hhere₁ (fun name => ?_) hloop).congr ⟨?_, ?_⟩ ?_
  · rw [hbefore, mem_labels_append, hs]
    simp
  · rintro ⟨hfines, hnested', hfree⟩
    refine ⟨fun p hp => ?_, hsites.mpr ⟨hnested, hnested'⟩, fun g hg => ?_⟩
    · rcases List.mem_append.mp hp with hp | hp
      · obtain ⟨p, hmem, rfl⟩ := List.mem_map.mp hp
        refine (hwithin p).mpr ⟨hfine p hmem, fun name hleaves hafter => ?_⟩
        by_cases hname : name ∈ labels before
        · exact .inl hname
        · have hnew : name ∉ names (b :: bs) := by
            rw [hseen, List.mem_append, not_or]
            exact ⟨hname, fine_of_mem_labels hfines hafter⟩
          obtain ⟨g, hg, rfl⟩ := List.mem_map.mp ((hmore name).mpr ⟨hnew, p, hmem, hleaves⟩)
          exact .inr fun hskip => hfree g (List.mem_append_right _ hg) ((hskips g hg).mpr hskip)
      · exact hfines p hp
    · rw [hnext]
      exact hfree g (List.mem_append_left _ hg)
  · rintro ⟨hfines, hnested', hfree⟩
    refine ⟨fun p hp => hfines p (List.mem_append_right _ hp), (hsites.mp hnested').2,
      fun g hg => ?_⟩
    rcases List.mem_append.mp hg with hg | hg
    · rw [← hnext]
      exact hfree g hg
    · intro hblocked
      obtain ⟨hnew, p, hp, hleaves⟩ := (hmore g.name).mp (List.mem_map_of_mem hg)
      rw [hseen, List.mem_append, not_or] at hnew
      have hafter : g.name ∈ labels rest := by
        obtain ⟨between, line, tail, rfl, -⟩ := hblocked
        exact List.mem_filterMap.mpr ⟨.label g.name line, by simp, rfl⟩
      rcases ((hwithin p).mp (hfines _ (hplaces p hp))).2 _ hleaves hafter with hbefore | hskip
      · exact hnew.1 hbefore
      · exact hskip ((hskips g hg).mp hblocked)
  · rintro a₂ - ⟨b', hleft⟩
    refine ⟨b', ?_, hleft.level, hleft.isLoop, fun name => ?_⟩
    · rw [List.flatMap_cons, List.length_append, ← Nat.add_assoc]
      exact hleft.here
    · rw [hleft.waiting, List.map_append, List.mem_append, hmore, mem_labels_cons, hs]
      rw [exists_leaves_cons, hseen, List.mem_append]
      grind

/-- An action that reads all that stands in a block. -/
def Fills (kind : Kind) (places : List Place) (sites : List Site) (act : Analysis Unit) : Prop :=
  ∀ start loops bs fs n a inLoop, Here start loops ⟨n, kind.isLoop, [], []⟩ bs fs n a →
    decide (0 < loops) = (inLoop || kind.isLoop) →
    Judges a ((∀ p ∈ places, p.Fine inLoop (names bs)) ∧ Nested sites)
      (fun a' => ∃ b' n', Here start loops b' bs fs n' a' ∧ b'.level = n ∧
        b'.isLoop = kind.isLoop ∧ ∀ name, name ∈ b'.gotos.map (·.name) ↔
          name ∉ names bs ∧ ∃ p ∈ places, p.Leaves name)
      act

/-- The variables of a loop, the statements of the block, and the condition of a `repeat`. -/
theorem ReadsRest.fills {env : Surroundings} {kind : Kind} {body : List Stmt} {sites : List Site}
    {count : Nat} {enter read leave : Analysis Unit} (henter : Reads [] [] count enter)
    (hread : ReadsRest env kind [] body read) (hleave : Passes sites leave) :
    Fills kind (ofBlock kind [] body) (Sites.stmts env body ++ sites) (do enter; read; leave) := by
  intro start loops bs fs n a inLoop hhere hloop
  refine (henter _ _ _ _ _ _ _ hhere).andThen (fun _ => by simp) fun a₁ _ hentered => ?_
  obtain ⟨more, hhere₁, -, hmore⟩ := hentered
  obtain rfl : more = [] := by
    rw [← List.map_eq_nil_iff (f := fun g : PendingGoto => g.name), List.eq_nil_iff_forall_not_mem]
    intro name hname
    simpa using (hmore name).mp hname
  rw [List.append_nil] at hhere₁
  refine (hread _ _ _ _ _ _ _ inLoop hhere₁ (by simp [labels]) hloop).andThen (fun hw => ?_) ?_
  · rw [nested_append] at hw
    exact ⟨hw.1, hw.2.1, by simp⟩
  · rintro a₂ ⟨hfine, hnested, -⟩ ⟨b', hleft⟩
    refine (hleave a₂).congr ?_ fun a₃ _ hsame => ?_
    · rw [nested_append]
      exact ⟨fun h => ⟨hfine, hnested, h⟩, fun h => h.2.2⟩
    · refine ⟨b', _, hleft.here.same hsame, hleft.level, hleft.isLoop, fun name => ?_⟩
      simp [hleft.waiting]

/-- What stands in a block of its own is a part of the block around it. -/
theorem Fills.block {kind : Kind} {places : List Place} {sites : List Site} {act : Analysis Unit}
    (h : Fills kind places sites act) :
    Reads places sites 0 (do openBlock kind.isLoop; act; closeBlock) := by
  intro start loops b bs fs n a hhere
  obtain ⟨a₁, hopen, hhere₁⟩ := hhere.openBlock kind.isLoop
  have hloop : decide (0 < if kind.isLoop then loops + 1 else loops) =
      (decide (0 < loops) || kind.isLoop) := by
    cases kind.isLoop <;> simp
  refine (judges_ok ⟨(), a₁, hopen, hhere₁⟩ trivial).andThen (fun _ => trivial)
    fun a₁ _ hhere₁ => ?_
  refine (h _ _ _ _ _ _ _ hhere₁ hloop).andThen id ?_
  rintro a₂ hclaim ⟨b', n', hhere₂, hlevel, hkind, hwaiting⟩
  obtain ⟨a₃, hclose, hhere₃⟩ := hhere₂.closeBlock hlevel hhere.level hhere.waiting
  refine .of_ok hclose hclaim
    ⟨b'.gotos.map fun g => { g with level := min g.level n }, ?_, fun g hg => ?_, fun name => ?_⟩
  · rw [hkind] at hhere₃
    cases hl : kind.isLoop <;> simpa [hl] using hhere₃
  · obtain ⟨g', hg', rfl⟩ := List.mem_map.mp hg
    have := hhere₂.waiting g' hg'
    simp only
    omega
  · rw [← hwaiting, List.map_map]
    rfl

/-- A function is read with nothing around it. -/
theorem Fills.function {body : List Stmt} {sites : List Site} {act : Analysis Unit}
    (h : Fills .plain (ofBlock .plain [] body) sites act) (a : State) :
    Judges a (Lawful body ∧ Nested sites) (Same a) (do openFunction; act; closeFunction) := by
  have hlawful : Lawful body ↔ (∀ p ∈ ofBlock .plain [] body, p.Fine false []) ∧
      ∀ p ∈ ofBlock .plain [] body, ∀ name, ¬ p.Leaves name := by
    simp only [Lawful, Place.legal_iff, forall_and]
  have hopen : openFunction a = .ok () { a with
      functions := ⟨a.bindings.length, 0, [⟨0, false, [], []⟩]⟩ :: a.functions } := by
    change EStateM.Result.ok () { a with functions := ⟨a.bindings.length, 0,
      [⟨a.bindings.length - a.bindings.length, false, [], []⟩]⟩ :: a.functions } = _
    rw [Nat.sub_self]
  have hhere : Here a.bindings.length 0 ⟨0, false, [], []⟩ [] a.functions 0 { a with
      functions := ⟨a.bindings.length, 0, [⟨0, false, [], []⟩]⟩ :: a.functions } :=
    ⟨rfl, rfl, Nat.le_refl 0, by simp⟩
  refine (judges_ok ⟨(), _, hopen, hhere⟩ trivial).andThen (fun _ => trivial) fun a₁ _ hhere₁ => ?_
  refine (h _ _ _ _ _ _ false hhere₁ rfl).andThen
    (fun hw => ⟨(hlawful.mp hw.1).1, hw.2⟩) ?_
  rintro a₂ ⟨hfine, hnested⟩ ⟨b', n', hhere₂, hlevel, -, hwaiting⟩
  refine (hhere₂.closeFunction hlevel).congr ?_ fun a₃ _ hsame => hsame
  have hnone : b'.gotos = [] ↔ ∀ p ∈ ofBlock .plain [] body, ∀ name, ¬ p.Leaves name := by
    rw [← List.map_eq_nil_iff (f := fun g : PendingGoto => g.name), List.eq_nil_iff_forall_not_mem]
    simp only [hwaiting, names, List.flatMap_nil, List.not_mem_nil, not_false_eq_true, true_and,
      not_exists, not_and]
    exact ⟨fun h p hp name => h name p hp, fun h name p hp => h p hp name⟩
  rw [hnone, hlawful]
  exact ⟨fun h => ⟨⟨hfine, h⟩, hnested⟩, fun h => h.1.2⟩

/-! ## Every tree -/

theorem refer?_same (name : String) (a : State) :
    ∃ found a', refer? name a = .ok found a' ∧ Same a a' := by
  have hget : (get : Analysis State) a = .ok a a := rfl
  rw [refer?, bind_of_ok hget]
  cases a.bindings.find? fun b => b.name == name with
  | none => exact ⟨false, a, rfl, rfl, rfl⟩
  | some b =>
    by_cases hdepth : b.depth = a.functions.length
    · refine ⟨true, a, ?_, rfl, rfl⟩
      simp only [hdepth, ne_eq, not_true_eq_false, if_false]
      rfl
    · refine ⟨true, { a with captured := a.captured.insert b.number }, ?_, rfl, rfl⟩
      simp only [hdepth, ne_eq, not_false_eq_true, if_true]
      rfl

theorem refer_passes (env : Surroundings) (name : String) :
    Passes [.name env name] (refer name) := by
  intro a
  obtain ⟨found, a₁, hfirst, hsame⟩ := refer?_same name a
  rw [refer]
  cases found with
  | true => exact .of_ok (u := ()) (b := a₁) (bind_of_ok hfirst) (nested_name env name) hsame
  | false =>
    obtain ⟨_, a₂, hsecond, hsame'⟩ := refer?_same "_ENV" a₁
    refine .of_ok (u := ()) (b := a₂) ((bind_of_ok hfirst).trans ?_) (nested_name env name)
      (hsame.trans hsame')
    exact bind_of_ok hsecond

theorem Passes.targets {sites : List Site} {act : Analysis Unit} (h : Passes sites act)
    (es : List Expr) : Passes (es.map .target ++ sites) act := fun a =>
  (h a).congr (nested_targets es sites).symm fun _ _ hsame => hsame

theorem Passes.cast {sites sites' : List Site} {act act' : Analysis Unit} (h : Passes sites act)
    (hsites : sites = sites') (hact : act = act') : Passes sites' act' := by
  subst hsites hact
  exact h

section Bodies

variable {env : Surroundings} {body : List Stmt} {kind : Kind} {read : Analysis Unit}

/-- A block in which nothing stands but its statements. -/
theorem ReadsRest.block (h : ReadsRest env kind [] body read) :
    Reads (ofBlock kind [] body) (Sites.stmts env body) 0
      (do openBlock kind.isLoop; read; closeBlock) := by
  refine (h.fills (declareAll_reads []) .skip).block.cast rfl (List.append_nil _) ?_
  simp [declareAll]

theorem ReadsRest.loop (h : ReadsRest env kind [] body read) (bs : List Binder) :
    Reads (ofBlock kind [] body) (Sites.stmts env body) 0
      (do openBlock kind.isLoop; declareAll bs; read; closeBlock) := by
  refine (h.fills (declareAll_reads bs) .skip).block.cast rfl (List.append_nil _) ?_
  simp only [bind_assoc, pure_bind]

theorem ReadsRest.function {name : String} {params : List Binder} {variadic : Bool}
    {line endLine : Nat} (h : ReadsRest (env.inside params) .plain [] body (stmts true body)) :
    Passes (Sites.function env (.mk name params variadic body line endLine))
      (function (.mk name params variadic body line endLine)) := by
  intro a
  have hjudges := (h.fills (declareAll_reads params) .skip).function a
  rw [List.append_nil] at hjudges
  rw [Sites.function, Capture.function]
  simp only [bind_assoc, pure_bind] at hjudges
  exact hjudges.congr (nested_function ..).symm fun _ _ hsame => hsame

theorem ReadsRest.repeats {condition : Expr} {line : Nat}
    (h : ReadsRest env.loop .repeats [] body (stmts false body))
    (hcondition : Passes (Sites.expr (env.loop.after body) condition) (expr condition)) :
    Reads (ofStmt (.repeatLoop body condition line))
      (Sites.stmt env (.repeatLoop body condition line)) 0
      (stmt (.repeatLoop body condition line)) := by
  refine (h.fills (declareAll_reads []) hcondition).block.cast rfl rfl ?_
  simp [declareAll, stmt, Kind.isLoop]

end Bodies

section Compound

variable {env : Surroundings} {condition : Expr} {body : List Stmt}

theorem cond_reads {more : List Branch} {otherwise : Option (List Stmt)} (line : Nat)
    (hcondition : Passes (Sites.expr env condition) (expr condition))
    (hbody : ReadsRest env .plain [] body (stmts true body))
    (hmore : Reads (ofBranches more) (Sites.branches env more) 0 (branches more))
    (hlast : ∀ body', otherwise = some body' → ReadsRest env .plain [] body' (stmts true body')) :
    Reads (ofStmt (.cond condition body more otherwise line))
      (Sites.stmt env (.cond condition body more otherwise line)) 0
      (stmt (.cond condition body more otherwise line)) := by
  have hfirst := (hcondition.reads.andThen hbody.block).andThen hmore
  rw [Sites.stmt.eq_def, stmt.eq_def, ofStmt.eq_def]
  cases otherwise with
  | none =>
    refine (hfirst.andThen Passes.skip.reads).cast rfl rfl ?_
    simp only [Kind.isLoop, bind_assoc]
  | some body' =>
    refine (hfirst.andThen (hlast body' rfl).block).cast rfl rfl ?_
    simp only [Kind.isLoop, bind_assoc]

theorem numericFor_reads {b : Binder} {start stop : Expr} {step : Option Expr} (line : Nat)
    (hstart : Passes (Sites.expr env start) (expr start))
    (hstop : Passes (Sites.expr env stop) (expr stop))
    (hstep : ∀ e, step = some e → Passes (Sites.expr env e) (expr e))
    (hbody : ReadsRest (env.counting.loop.declare [b]) .loop [] body (stmts true body)) :
    Reads (ofStmt (.numericFor b start stop step body line))
      (Sites.stmt env (.numericFor b start stop step body line)) 0
      (stmt (.numericFor b start stop step body line)) := by
  have hfirst := hstart.andThen hstop
  rw [Sites.stmt.eq_def, stmt.eq_def, ofStmt.eq_def]
  cases step with
  | none =>
    refine ((hfirst.andThen .skip).reads.andThen (hbody.loop [b])).cast rfl rfl ?_
    simp [declareAll, Kind.isLoop]
  | some e =>
    refine ((hfirst.andThen (hstep e rfl)).reads.andThen (hbody.loop [b])).cast rfl rfl ?_
    simp [declareAll, Kind.isLoop]

theorem stmts_cons_reads {kind : Kind} {before rest : List Stmt} {s : Stmt} {ends : Bool}
    (hends : ends = decide (kind ≠ .repeats))
    (hs : s.labelName? = none → Reads (ofStmt s) (Sites.stmt env s) s.declared.length (stmt s))
    (hrest : ReadsRest (env.declare s.declared) kind (before ++ [s]) rest (stmts ends rest)) :
    ReadsRest env kind before (s :: rest) (stmts ends (s :: rest)) := by
  by_cases hlabel : ∃ name line, s = .label name line
  · obtain ⟨name, line, rfl⟩ := hlabel
    rw [stmts]
    rw [Stmt.declared, Surroundings.declare_nil] at hrest
    · exact hrest.label hends
    all_goals simp
  · rw [stmts.eq_3 _ _ _ fun name line heq => hlabel ⟨name, line, heq⟩]
    have hnone : s.labelName? = none := by
      cases s with
      | label name line => exact absurd ⟨name, line, rfl⟩ hlabel
      | _ => rfl
    exact hrest.cons hnone (hs hnone)

end Compound

mutual

theorem expr_passes (env : Surroundings) : (e : Expr) → Passes (Sites.expr env e) (expr e)
  | .literal _ _ | .str _ _ | .vararg _ => .skip
  | .unary _ e _ | .paren e _ => expr_passes env e
  | .binary _ l r _ => (expr_passes env l).andThen (expr_passes env r)
  | .name n _ => refer_passes env n
  | .call f args _ => (expr_passes env f).andThen (exprs_passes env args)
  | .method e _ args _ => (expr_passes env e).andThen (exprs_passes env args)
  | .table fs _ => fields_passes env fs
  | .index e k _ => (expr_passes env e).andThen (expr_passes env k)
  | .function f => function_passes env f

theorem exprs_passes (env : Surroundings) :
    (es : List Expr) → Passes (Sites.exprs env es) (exprs es)
  | [] => .skip
  | e :: rest => (expr_passes env e).andThen (exprs_passes env rest)

theorem field_passes (env : Surroundings) : (f : Field) → Passes (Sites.field env f) (field f)
  | .item e => expr_passes env e
  | .pair k e => (expr_passes env k).andThen (expr_passes env e)

theorem fields_passes (env : Surroundings) : (fs : List Field) →
    Passes (Sites.fields env fs) (fields fs)
  | [] => .skip
  | f :: rest => (field_passes env f).andThen (fields_passes env rest)

theorem function_passes (env : Surroundings) : (f : Function) →
    Passes (Sites.function env f) (function f)
  | .mk _ params _ body _ _ => (stmts_reads (env.inside params) .plain true rfl [] body).function

theorem branches_reads (env : Surroundings) : (bs : List Branch) →
    Reads (ofBranches bs) (Sites.branches env bs) 0 (branches bs)
  | [] => Passes.skip.reads
  | .mk condition body :: rest =>
    (((expr_passes env condition).reads.andThen
      (stmts_reads env .plain true rfl [] body).block).andThen (branches_reads env rest)).cast
        rfl rfl (by simp only [branches, branch, Kind.isLoop, bind_assoc])

theorem stmt_reads (env : Surroundings) : (s : Stmt) → s.labelName? = none →
    Reads (ofStmt s) (Sites.stmt env s) s.declared.length (stmt s)
  | .expr e _, _ => (expr_passes env e).reads
  | .assign targets values _, _ =>
    ((((exprs_passes env targets).andThen (exprs_passes env values)).targets targets).cast
      (List.append_assoc ..).symm rfl).reads
  | .locals bs values _, _ =>
    ((exprs_passes env values).reads.andThen (declareAll_reads bs)).cast rfl (List.append_nil _) rfl
  | .localFunction b f _, _ =>
    ((declareAll_reads [b]).pass (function_passes _ f)).cast rfl rfl (by simp [declareAll, stmt])
  | .function target f _, _ =>
    (((expr_passes env target).andThen (function_passes env f)).targets [target]).reads
  | .block body _, _ => (stmts_reads env .plain true rfl [] body).block
  | .cond condition body more otherwise line, _ =>
    cond_reads line (expr_passes env condition) (stmts_reads env .plain true rfl [] body)
      (branches_reads env more)
      (match otherwise with
        | none => (by simp)
        | some body => fun _ heq => Option.some.inj heq ▸ stmts_reads env .plain true rfl [] body)
  | .whileLoop condition body _, _ =>
    (expr_passes env condition).reads.andThen (stmts_reads env.loop .loop true rfl [] body).block
  | .repeatLoop body condition _, _ =>
    (stmts_reads env.loop .repeats false rfl [] body).repeats (expr_passes _ condition)
  | .numericFor _ start stop step body line, _ =>
    numericFor_reads line (expr_passes env start) (expr_passes env stop)
      (match step with
        | none => (by simp)
        | some e => fun _ heq => Option.some.inj heq ▸ expr_passes env e)
      (stmts_reads _ .loop true rfl [] body)
  | .genericFor bs iterators body _, _ =>
    (exprs_passes env iterators).reads.andThen ((stmts_reads _ .loop true rfl [] body).loop bs)
  | .ret values _, _ => (exprs_passes env values).reads
  | .exit line, _ => leaveLoop_reads env line
  | .goto name line, _ => jumpTo_reads name line
  | .label _ _, h => nomatch h

theorem stmts_reads (env : Surroundings) (kind : Kind) (ends : Bool)
    (hends : ends = decide (kind ≠ .repeats)) (before : List Stmt) : (ss : List Stmt) →
    ReadsRest env kind before ss (stmts ends ss)
  | [] => .nil env kind before
  | s :: rest =>
    stmts_cons_reads hends (stmt_reads env s)
      (stmts_reads (env.declare s.declared) kind ends hends (before ++ [s]) rest)

end

end Jumps

open Capture Jumps in
/-- A program is accepted just if the jumps and labels of each of its functions are legal. -/
theorem capturedBinders_iff (program : Block) :
    (∃ captured, capturedBinders program = .ok captured) ↔
      ∀ body ∈ Jumps.bodies program, Lawful body := by
  have hjudges := ((stmts_reads {} .plain true rfl [] program).fills (declareAll_reads [])
    .skip).function {}
  simp only [declareAll, List.forM_eq_forM, List.forM_nil, bind_assoc, pure_bind,
    List.append_nil] at hjudges
  have hclaim : (Lawful program ∧ Nested (sites program)) ↔
      ∀ body ∈ Jumps.bodies program, Lawful body := by
    simp [Jumps.bodies, Nested]
  rw [← hclaim, capturedBinders]
  simp only [EStateM.run]
  unfold Judges at hjudges
  split
  next a hrun =>
    rw [hrun] at hjudges
    exact ⟨fun _ => hjudges.1, fun _ => ⟨_, rfl⟩⟩
  next e a hrun =>
    rw [hrun] at hjudges
    refine ⟨?_, fun h => absurd h hjudges⟩
    rintro ⟨_, ⟨⟩⟩

end LuaMachine
