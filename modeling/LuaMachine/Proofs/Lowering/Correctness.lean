import LuaMachine.Proofs.Lowering.Expressions
import LuaMachine.Proofs.Lowering.Values
import LuaMachine.Proofs.Structured.Correctness
/-! # What the compiler writes for an expression

The two sides come together: the words of an expression have the shape that its tree tells, and words
of this shape leave the value of the tree. The names of a function are its variables, in registers,
and its upvalues; every other name is a field of the table that `_ENV` stands for.

* `Lowering.frameStore`: what a running function knows.
* `Lowering.Stage`: a running function that has the words that were written between two states.
* `Lowering.evaluate_computes`: the words of an expression, and the registers in use.
-/
set_option autoImplicit false

namespace LuaMachine

/-! ## What a function knows -/

namespace Machine

variable {f : Frame} {i : Nat} {x : Upvalue} {m : Machine}

/-- The upvalue of the running function, if it is there. -/
def own? (f : Frame) (i : Nat) (m : Machine) : Option Upvalue := do
  let c ← m.heap.closure? f.closure
  let u ← c.upvalue? i
  m.heap.upvalue? u

theorem own?_eq_some (h : Own f i x m) : m.own? f i = some x := by
  obtain ⟨c, u, hc, hu, hx⟩ := h
  simp [own?, Heap.closure?, Heap.upvalue?, hc, hu, hx]

end Machine

namespace Lowering

open Structured Generator
open Machine (Own Leads Tries Under)

variable {s : FunctionScope} {f : Frame} {m : Machine} {name : String}

/-- The names of a function and their values: its variables, the innermost one first, and then its
upvalues. -/
def frameBindings (s : FunctionScope) (f : Frame) (m : Machine) : Variables :=
  (s.locals.toList.reverse.map fun l => (l.name, m.reg f l.register)) ++
    s.proto.upvalues.toList.zipIdx.map fun u =>
      (u.1.name, ((m.own? f u.2).map fun x => x.get m.stack).getD .nil)

def frameStore (s : FunctionScope) (f : Frame) (m : Machine) : Store :=
  ⟨frameBindings s f m, m.heap.table⟩

theorem lookup_map {α β : Type} (l : List α) (key : α → String) (val : α → β) :
    (l.map fun a => (key a, val a)).lookup name = (l.find? fun a => key a == name).map val := by
  induction l with
  | nil => rfl
  | cons a l ih =>
    rw [List.map_cons, List.lookup_cons, List.find?_cons, ih, BEq.comm (a := name)]
    cases key a == name <;> rfl

theorem lookup_zipIdx {α β : Type} (name : String) (l : List α) (k : Nat) (key : α → String)
    (val : Nat → β) :
    ((l.zipIdx k).map fun a => (key a.1, val a.2)).lookup name =
      (l.findIdx? fun a => key a == name).map fun i => val (i + k) := by
  induction l generalizing k with
  | nil => rfl
  | cons a l ih =>
    rw [List.zipIdx_cons, List.map_cons, List.lookup_cons, List.findIdx?_cons, ih,
      BEq.comm (a := name)]
    cases key a == name with
    | true => simp
    | false =>
      simp only [Bool.false_eq_true, if_false, Option.map_map]
      refine Option.map_congr fun i _ => ?_
      rw [Function.comp_apply, Nat.add_assoc, Nat.add_comm 1]

/-- A name has the value of its register or upvalue; a global has none of its own. -/
theorem lookup_frameBindings (s : FunctionScope) (f : Frame) (m : Machine) (name : String) :
    (frameBindings s f m).lookup name =
      match s.home name with
      | .register r => some (m.reg f r)
      | .upvalue i => some (((m.own? f i).map fun x => x.get m.stack).getD .nil)
      | .global => none := by
  have hlocals : (s.locals.toList.reverse.map fun l => (l.name, m.reg f l.register)).lookup name =
      (s.findLocal name).map fun l => m.reg f l.register := by
    rw [lookup_map, FunctionScope.findLocal, Array.findRev?_eq_find?_reverse, ← Array.find?_toList,
      Array.toList_reverse]
  have hupvalues := lookup_zipIdx name s.proto.upvalues.toList 0 (·.name) fun i =>
    ((m.own? f i).map fun x => x.get m.stack).getD .nil
  rw [← List.findIdx?_toArray, Array.toArray_toList] at hupvalues
  rw [frameBindings, List.lookup_append, hlocals, hupvalues, FunctionScope.home]
  cases s.findLocal name with
  | some l => rfl
  | none =>
    unfold FunctionScope.findUpvalue
    cases s.proto.upvalues.findIdx? fun u => u.name == name <;> rfl

/-! ## Running what was compiled -/

variable {Good : Prototype → Prop} {ps : List Nat} {st st' : State} {target t : Nat} {e : Expr} {u : Unit}
  {code : Nat → Prototype} {outer : Machine.Surroundings}

/-- A running function that is about to perform the words that were written between two states. The
upvalues that it knows are there, and those that are open stand for slots below its temporary
values. -/
structure Stage (st st' : State) (code : Nat → Prototype) (outer : Machine.Surroundings) (f : Frame)
    (m : Machine) : Prop where
  at' : Machine.At code outer f st.size m
  fits : Fits f.prototype st'.current.home st st'
  upvalues : ∀ i < st'.current.proto.upvalues.size, ∃ x, Own f i x m ∧
    ∀ slot, x = .opened slot → slot < f.base + st.level

/-- The function finds its names where the compiler has. -/
abbrev Stage.site (_ : Stage st st' code outer f m) : Site :=
  ⟨code, outer, f, fun _ => True, st'.current.home, st.level⟩

theorem Stage.knows (h : Stage st st' code outer f m) (hs : Sound Good ps st')
    (hlocals : st'.current.locals = st.current.locals) :
    h.site.Knows (frameStore st'.current f m) m where
  environment := trivial
  tables r t ht := Heap.table_eq ht
  names name _ := by
    show h.site.Stands m ((frameBindings st'.current f m).lookup name) (st'.current.home name)
    rw [lookup_frameBindings]
    cases hl : st'.current.findLocal name with
    | some l =>
      rw [FunctionScope.home_of_local hl]
      rw [FunctionScope.findLocal, Array.findRev?_eq_find?_reverse] at hl
      have hlt : l.register < st'.level :=
        hs.current.register_lt (by simpa using Array.mem_of_find?_eq_some hl)
      have hlevel : st'.level = st.level := by rw [State.level, State.level, hlocals]
      exact ⟨(hlevel ▸ hlt : l.register < st.level), rfl⟩
    | none =>
      cases hi : st'.current.findUpvalue name with
      | some i =>
        rw [FunctionScope.home_of_upvalue hl hi]
        obtain ⟨hlt, -⟩ := Array.findIdx?_eq_some_iff_getElem.mp hi
        obtain ⟨x, hown, hlow⟩ := h.upvalues i hlt
        exact ⟨x, hown, hlow, by simp only [Machine.own?_eq_some hown, Option.map_some, Option.getD_some]⟩
      | none =>
        rw [FunctionScope.home_of_neither hl hi]
        rfl

/-- Compiling an expression into a register above the variables leaves the registers in use, the
variables and the blocks as they were. When its words run, they leave the value of the expression in
the register and all others in use as they were, or they fail if the expression has no value. -/
theorem evaluate_computes (hs : Sound Prototype.WellFormed ps st) (he : Simple (fun _ => True) e)
    (hlow : st.level ≤ target) (htop : target < st.top)
    (h : evaluate e (.register target) st = .ok u st') :
    (st'.current.free = st.current.free ∧ st'.current.locals = st.current.locals ∧
      st'.current.blocks = st.current.blocks) ∧
    ∀ code outer f m, Stage st st' code outer f m →
      Tries (value (frameStore st'.current f m) e) m fun v m' =>
        Machine.At code outer f st'.size m' ∧ m'.reg f target = v ∧
          (∀ r < st.top, r ≠ target → m'.reg f r = m.reg f r) ∧ Under f m m' ∧
          m.heap.Thins m'.heap := by
  have hemits := lowersTo_evaluate closed_wellFormed e hs (d := .register target) htop h
  have hkeeps := hemits.step.keeps.current
  have htops : st'.top = st.top := hemits.top_eq
  refine ⟨⟨?_, hkeeps.locals, hkeeps.blocks⟩, fun code outer f m hstage => ?_⟩
  · rw [hemits.step.sound.free_eq, hs.free_eq, htops]
  · have hcodes := hemits.code f.prototype st'.current.home hstage.fits
    have hruns := (Site.runs_codes (g := hstage.site) e he).1 hcodes hlow htop hstage.at'
      (hstage.knows hemits.step.sound hkeeps.locals)
    exact hruns.mono fun v m' _ hm' => ⟨hm'.at', hm'.reg, hm'.others, hm'.under, hm'.heap⟩

/-! ## What is known before the program runs -/

theorem simple_of_fold (names : String → Prop) : (e : Expr) → (c : Constant) → e.fold = some c →
    Simple names e
  | .literal _ _, _, _ | .str _ _, _, _ => trivial
  | .paren e _, c, h => simple_of_fold names e c h
  | .unary op e _, c, h => by
    rw [Expr.fold] at h
    split at h
    next a ha => exact simple_of_fold names e a ha
    next => cases h
  | .binary op l r _, c, h => by
    rw [Expr.fold] at h
    split at h
    next a b ha hb => exact ⟨simple_of_fold names l a ha, simple_of_fold names r b hb⟩
    next => cases h
  | .name _ _, _, h | .vararg _, _, h | .call _ _ _, _, h | .method _ _ _ _, _, h | .table _ _, _, h
  | .index _ _ _, _, h | .function _, _, h => by cases h

/-- An expression that is a constant for the compiler has the value of the constant, whatever its
names stand for. If its operators are left in the code all the same, they are performed without an
error, and they leave this value. -/
theorem fold_faithful {c : Constant} (hfold : e.fold = some c) :
    (∀ s, value s e = some c.value) ∧
    ∀ {ps : List Nat} {st st' : State} {target : Nat}, Sound Prototype.WellFormed ps st →
      st.level ≤ target → target < st.top → unfolded e (.register target) st = .ok () st' →
      ∀ code outer f m, Stage st st' code outer f m →
        Leads 0 m fun m' => Machine.At code outer f st'.size m' ∧ m'.reg f target = c.value ∧
          (∀ r < st.top, r ≠ target → m'.reg f r = m.reg f r) ∧ Under f m m' := by
  refine ⟨fun s => value_of_fold hfold,
    fun {ps st st' target} hs hlow htop h code outer f m hstage => ?_⟩
  have hemits := lowersTo_unfolded closed_wellFormed e hs (d := .register target) htop h
  have hcodes := hemits.code f.prototype st'.current.home hstage.fits
  have hruns := (Site.runs_codes (g := hstage.site) e (simple_of_fold _ e c hfold)).1 hcodes hlow
    htop hstage.at' (hstage.knows hemits.step.sound hemits.step.keeps.current.locals)
  simp only [value_of_fold hfold] at hruns
  exact Leads.mono hruns fun m' hm' => ⟨hm'.at', hm'.reg, hm'.others, hm'.under⟩

/-! ## On a new machine -/

/-- A main program that has no words yet. -/
def blank : State := ⟨[FunctionScope.create (mainPrototype "text")], 1, {}⟩

theorem blank_sound : Sound Good [] blank :=
  create_sound (fresh_main "text") .nil

/-- A main program that has no words yet, with one register in use. -/
def started : State :=
  ⟨[{ FunctionScope.create (mainPrototype "text") with free := 1 }], 1, {}⟩

theorem started_sound : Sound Good [] started := by
  have hreserve : reserve 1 1 blank = .ok 0 started := rfl
  exact (reserve_step hreserve blank_sound).1.sound

/-- What was compiled at the beginning of a main program is run by a new machine, when a return is
added behind it. -/
theorem exists_stage (hstep : Step Prototype.Runnable [] started st' t) :
    ∃ code outer f m, Stage started st' code outer f m ∧
      Machine.Shows f (.table 0) (fun _ => {}) m := by
  obtain ⟨st'', hret⟩ : ∃ st'', emitAbc .ret 0 1 0 st' = .ok () st'' := ⟨_, rfl⟩
  have hs := hstep.sound
  have hmove := emitReturn_moves hret hs (by omega) (.inl rfl)
  obtain ⟨n, hemit⟩ := emitAbc_ok hret
  obtain ⟨rfl, hword, hsize⟩ := emit_word hemit hs
  have hadds := emit_adds hemit hs
  have hvalid : st''.current.proto.CodeValid :=
    hs.current.proto.codeValid hmove.sound.current.proto hadds.grows hsize hadds.code
      (Prototype.opcodeAt?_eq_some_iff.mpr ⟨_, hword, Instruction.opcode?_abc .ret⟩)
  have hparams : st''.current.proto.params = 0 :=
    hadds.grows.params.trans hstep.grows.params
  have hrunnable := closed_runnable _ hvalid (hparams ▸ Nat.zero_le _)
    hmove.sound.current.proto.children
  have hmain : Main st'' := hmove.main hs (hstep.main started_sound ⟨rfl, rfl⟩)
  obtain ⟨code, hready, hblank⟩ := Machine.ready_create {} #[] (by simp)
  obtain ⟨hglobals, htables⟩ := create_tables {} #[]
  have hroom : (Machine.create {} #[]).Room st''.current.proto := by
    have hregisters := hmove.sound.registers_le
    refine ⟨?_, ?_, ?_⟩
    · rw [hblank.depth, hblank.options]
      decide
    · rw [hblank.frames, hblank.options]
      decide
    · rw [hblank.top, hblank.options]
      show 0 + 1 + st''.current.proto.registers ≤ 1000000
      omega
  obtain ⟨r, m₂, m, g, henters, -⟩ := @exists_enters _ _ none (fun _ => {})
    hrunnable (by rw [hmain.upvalues]; decide) ⟨code, hready⟩ hroom hready.globals
    fun r t ht => (htables r t ht).symm
  rw [Option.getD_none, hglobals] at henters
  refine ⟨g.code, g.outer, g.frame, m, ⟨henters.at', ⟨fun n _ hlt => ?_, fun n k hk => ?_,
    fun _ _ => rfl⟩, fun i hi => ?_⟩, henters.shown⟩
  · rw [henters.prototype]
    exact hadds.code n hlt
  · rw [henters.prototype]
    exact hadds.grows.constants n k hk
  · rw [(hstep.main started_sound ⟨rfl, rfl⟩).upvalues] at hi
    obtain rfl : i = 0 := Nat.lt_one_iff.mp hi
    exact ⟨_, henters.shown.environment, nofun⟩

/-- The table of the globals is not nil. -/
theorem evaluate_computes_environment : ∃ st' code outer f m m',
    evaluate (.binary .ne (.name "_ENV" 1) (.literal .nil 1) 1) (.register 0) started = .ok () st' ∧
      Stage started st' code outer f m ∧ Machine.At code outer f st'.size m' ∧
      m'.reg f 0 = .bool true := by
  have hevaluated : (match evaluate (.binary .ne (.name "_ENV" 1) (.literal .nil 1) 1) (.register 0)
      started with
      | .ok _ st => some (st.current.home "_ENV")
      | .error _ _ => none) = some (.upvalue 0) := by
    decide +kernel
  cases h : evaluate (.binary .ne (.name "_ENV" 1) (.literal .nil 1) 1) (.register 0) started with
  | error e st => rw [h] at hevaluated; cases hevaluated
  | ok u st' =>
    rw [h] at hevaluated
    have hhome : st'.current.home "_ENV" = .upvalue 0 := Option.some.inj hevaluated
    have hemits := lowersTo_evaluate closed_runnable _ started_sound
      (d := .register 0) Nat.one_pos h
    obtain ⟨code, outer, f, m, hstage, hshows⟩ := exists_stage hemits.step
    have hcomputes := (evaluate_computes started_sound
      (e := .binary .ne (.name "_ENV" 1) (.literal .nil 1) 1) ⟨trivial, trivial⟩ (Nat.le_refl 0)
      Nat.one_pos h).2 code outer f m hstage
    have hread : value (frameStore st'.current f m) (.name "_ENV" 1) = some (.table 0) := by
      rw [value, Store.read, frameStore, lookup_frameBindings, hhome]
      simp only [Machine.own?_eq_some hshows.environment]
      rfl
    have hvalue : value (frameStore st'.current f m)
        (.binary .ne (.name "_ENV" 1) (.literal .nil 1) 1) = some (.bool true) := by
      rw [value_operator (by simp) (by simp), hread]
      rfl
    rw [hvalue] at hcomputes
    obtain ⟨_, m', -, -, hat, hreg, -⟩ := hcomputes
    exact ⟨st', code, outer, f, m, m', rfl, hstage, hat, hreg⟩

/-- Both operands are tested, and the second one is left out. -/
theorem fold_faithful_logic : ∃ st' code outer f m m',
    unfolded (.binary .or (.unary .not (.literal .nil 1) 1) (.literal .nil 1) 1) (.register 0)
      started = .ok () st' ∧ Stage started st' code outer f m ∧
      Machine.At code outer f st'.size m' ∧ m'.reg f 0 = .bool true := by
  have hcompiled : (match unfolded (.binary .or (.unary .not (.literal .nil 1) 1) (.literal .nil 1) 1)
      (.register 0) started with
      | .ok _ st => st.size
      | .error _ _ => 0) = 5 := by
    decide +kernel
  cases h : unfolded (.binary .or (.unary .not (.literal .nil 1) 1) (.literal .nil 1) 1)
      (.register 0) started with
  | error e st => rw [h] at hcompiled; cases hcompiled
  | ok u st' =>
    have hemits := lowersTo_unfolded closed_runnable _ started_sound (d := .register 0) Nat.one_pos h
    obtain ⟨code, outer, f, m, hstage, -⟩ := exists_stage hemits.step
    obtain ⟨_, m', -, -, hat, hreg, -⟩ := (fold_faithful (c := .bool true) rfl).2 started_sound
      (Nat.le_refl 0) Nat.one_pos h code outer f m hstage
    exact ⟨st', code, outer, f, m, m', rfl, hstage, hat, hreg⟩

end Lowering
end LuaMachine
