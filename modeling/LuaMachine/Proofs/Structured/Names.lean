import LuaMachine.Proofs.Generator.Blocks
import LuaMachine.Proofs.Structured.Words
/-! # Names and registers

While a main program is compiled, each of its variables has a register, and `_ENV` is its only
upvalue. When its words run, the registers hold the values of the variables.

* `Generator.Main`: the scope of a main program, where looking up a name changes nothing.
* `Structured.Placed`: the words that were written between two states are those of a function.
* `Structured.Holds`, `Structured.Here`: the machine has the values of a store in its registers.
-/
set_option autoImplicit false

namespace LuaMachine

/-! ## The scope of a main program -/

namespace Generator

/-- The number of words that are written. -/
abbrev State.size (st : State) : Nat := st.current.proto.chunk.size

/-- No function is around the current one, whose only upvalue is `_ENV`. -/
structure Main (st : State) : Prop where
  alone : st.outer = []
  upvalues : st.current.proto.upvalues = #[⟨"_ENV", false, 0⟩]

variable {Good : Prototype → Prop} {ps : List Nat} {st st' : State} {u : Unit} {line n : Nat}

theorem Main.extends (hm : Main st) (he : Extends st st') (hne : st.scopes ≠ [])
    (hne' : st'.scopes ≠ []) : Main st' := by
  have houter := he.outer
  rw [hm.alone] at houter
  have halone : st'.outer = [] := List.forall₂_nil_left_iff.mp houter
  have hgiven := he.given
  rw [State.scopes_eq hne, State.scopes_eq hne', hm.alone, halone] at hgiven
  have hup : st'.current.proto.upvalues = st.current.proto.upvalues := by
    simpa [FunctionScope.given] using hgiven
  exact ⟨halone, hup.trans hm.upvalues⟩

theorem Step.main {t : Nat} (h : Step Good ps st st' t) (hs : Sound Good ps st) (hm : Main st) :
    Main st' :=
  hm.extends h.keeps.extends hs.exists_scope h.sound.exists_scope

theorem Moves.main {ps' : List Nat} {t l : Nat} (h : Moves Good ps' st st' t l)
    (hs : Sound Good ps st) (hm : Main st) : Main st' :=
  hm.extends h.extends' hs.exists_scope h.sound.exists_scope

/-- A name is a variable with a register, or `_ENV` itself, or a global. -/
def Stands (st : State) (name : String) (r : Reference) : Prop :=
  (∃ l, st.current.findLocal name = some l ∧ r = .register l.register l.constant) ∨
    st.current.findLocal name = none ∧
      (name = "_ENV" ∧ (∃ c, r = .upvalue 0 c) ∨ name ≠ "_ENV" ∧ r = .global)

theorem Stands.congr {name : String} {r : Reference} (h : Stands st name r)
    (hlocals : st'.current.locals = st.current.locals) : Stands st' name r := by
  unfold Stands FunctionScope.findLocal at h ⊢
  rw [hlocals]
  exact h

theorem resolve_main {name : String} {r : Reference} (h : resolve name line st = .ok r st')
    (hs : Sound Good ps st) (hm : Main st) : st' = st ∧ Stands st name r := by
  simp only [resolve, bind_ok, get_ok, set_ok, and_assoc, exists_and_left, exists_eq_left,
    exists_const] at h
  have hscopes : st.scopes = [st.current] := by
    rw [State.scopes_eq hs.exists_scope, hm.alone]
  rw [hscopes] at h
  have hstay : ({ st with scopes := [st.current] } : State) = st := by rw [← hscopes]
  cases hlocal : st.current.findLocal name with
  | some l =>
    simp only [FunctionScope.resolve, List.head?_cons, Option.bind_some, hlocal, pure_ok] at h
    exact ⟨h.2.trans hstay, .inl ⟨l, hlocal, h.1⟩⟩
  | none =>
    by_cases henv : name = "_ENV"
    · have hfind : st.current.findUpvalue name = some 0 := by
        rw [FunctionScope.findUpvalue, hm.upvalues, henv]
        simp
      simp only [FunctionScope.resolve, List.head?_cons, Option.bind_some, hlocal,
        FunctionScope.resolveUpvalue, hfind, pure_ok] at h
      exact ⟨h.2.trans hstay, .inr ⟨hlocal, .inl ⟨henv, _, h.1⟩⟩⟩
    · have hfind : st.current.findUpvalue name = none := by
        rw [FunctionScope.findUpvalue, hm.upvalues]
        simp [Ne.symm henv]
      simp only [FunctionScope.resolve, List.head?_cons, Option.bind_some, hlocal,
        FunctionScope.resolveUpvalue, hfind, List.head?_nil, Option.bind_none, pure_ok] at h
      exact ⟨h.2.trans hstay, .inr ⟨hlocal, .inr ⟨henv, h.1⟩⟩⟩

/-! ## Actions that write no words -/

theorem setLine_size (h : setLine line st = .ok u st') : st'.size = st.size := by
  simp only [setLine, modify_ok] at h
  rw [h]
  rfl

theorem onScope_size {α : Type} {f : FunctionScope → Except CompileFault (FunctionScope × α)} {a : α}
    (h : onScope f st = .ok a st') (hne : st.scopes ≠ [])
    (hf : ∀ s, f st.current = .ok (s, a) → s.proto.chunk = st.current.proto.chunk) :
    st'.size = st.size := by
  obtain ⟨s, hs, rfl⟩ := onScope_ok h
  rw [State.size, State.current_mapCurrent hne, hf s hs]

theorem reserve_size {count r : Nat} (h : reserve count line st = .ok r st')
    (hs : Sound Good ps st) : st'.size = st.size := by
  simp only [reserve, bind_ok, pure_ok] at h
  obtain ⟨register, st₁, h, rfl, rfl⟩ := h
  refine onScope_size h hs.exists_scope fun s hreserve => ?_
  unfold FunctionScope.reserve at hreserve
  split at hreserve
  next s' hensure =>
    simp only [Except.ok.injEq, Prod.mk.injEq] at hreserve
    obtain ⟨rfl, rfl⟩ := hreserve
    obtain ⟨rfl, -⟩ := ensureRegisters_ok hensure
    rfl
  next => cases hreserve

theorem release_size {r : Nat} (h : release r st = .ok u st') (hs : Sound Good ps st) :
    st'.size = st.size := by
  obtain ⟨-, -, rfl⟩ := release_ok h
  rw [State.size, State.current_mapCurrent hs.exists_scope]

theorem releaseAbove_size {r : Nat} (h : releaseAbove r st = .ok u st') (hs : Sound Good ps st) :
    st'.size = st.size := by
  simp only [releaseAbove, bind_ok, free_ok] at h
  obtain ⟨_, _, ⟨rfl, rfl⟩, h⟩ := h
  split at h
  · exact release_size h hs
  · rw [(pure_ok.mp h).2]

theorem addConstant_size {k : Constant} (h : addConstant k st = .ok n st') (hs : Sound Good ps st) :
    st'.size = st.size := by
  simp only [addConstant, bind_ok, scope_ok, and_assoc, exists_and_left, exists_eq_left] at h
  cases hplace : st.current.proto.chunk.placeOf k with
  | error e => simp only [hplace, bind_ok, throw_ok, and_false, exists_false] at h
  | ok place =>
    simp only [hplace, bind_ok, modifyScope_ok, pure_ok, exists_and_left, exists_eq_left,
      exists_const] at h
    rw [h.2, State.size, State.current_mapCurrent hs.exists_scope]
    unfold Chunk.size Chunk.withConstant
    split <;> rfl

theorem keyPlace?_size {key : String} {place : Option Nat} (h : keyPlace? key st = .ok place st')
    (hs : Sound Good ps st) : st'.size = st.size := by
  simp only [keyPlace?, bind_ok, pure_ok] at h
  obtain ⟨n, st₁, h, -, rfl⟩ := h
  exact addConstant_size h hs

theorem fieldPlace?_size {key : Expr} {place : Option Nat} (h : fieldPlace? key st = .ok place st')
    (hs : Sound Good ps st) : st'.size = st.size := by
  unfold fieldPlace? at h
  split at h
  · exact keyPlace?_size h hs
  · rw [(pure_ok.mp h).2]

theorem patchJump_size {t : Nat} (h : patchJump n t st = .ok u st') (hs : Sound Good ps st) :
    st'.size = st.size := by
  obtain ⟨-, rfl⟩ := patchWithin_ok h
  rw [State.size, State.current_mapCurrent hs.exists_scope, FunctionScope.size_patched]

end Generator

/-! ## Words in their place -/

namespace Structured

open Generator

/-- The words that were written between two states are those of the function, but for the holes, and
the function has the constants and registers that they need. -/
structure Placed (f : Frame) (holes : List Nat) (st st' : State) : Prop where
  words : ∀ n, st.size ≤ n → n < st'.size → n ∉ holes →
    f.prototype.chunk.code[n]? = st'.current.proto.chunk.code[n]?
  constants : ∀ (n : Nat) (k : Constant), st'.current.proto.chunk.constants[n]? = some k →
    f.prototype.chunk.constants[n]? = some k
  registers : st'.current.proto.registers ≤ f.prototype.registers

/-- A word of the function, by its fields. -/
structure IsWord (f : Frame) (n : Nat) (op : Opcode) (a b c : Nat) (i : Instruction) : Prop where
  word : f.prototype.chunk.code[n]? = some i
  op : i.opcode? = some op
  a : i.a = a
  b : i.b = b
  c : i.c = c

/-- The word is a jump to the target. -/
def IsJump (f : Frame) (n t : Nat) : Prop :=
  ∃ i, f.prototype.chunk.code[n]? = some i ∧ i.opcode? = some .jump ∧
    (n : Int) + 1 + i.signedAx = t

section Placed

variable {f : Frame} {holes : List Nat} {Good : Prototype → Prop} {ps : List Nat}
  {st st' st₁ : State} {t n a b c : Nat} {i : Instruction} {op : Opcode} {u : Unit}

theorem Placed.before (h : Placed f holes st st')
    (hcode : ∀ n < st₁.size, st'.current.proto.chunk.code[n]? = st₁.current.proto.chunk.code[n]?)
    (hg : st₁.current.proto.Grows st'.current.proto) : Placed f holes st st₁ where
  words n hn hlt hhole := (h.words n hn (Nat.lt_of_lt_of_le hlt hg.size) hhole).trans (hcode n hlt)
  constants n k hk := h.constants n k (hg.constants n k hk)
  registers := Nat.le_trans hg.registers h.registers

theorem Placed.after (h : Placed f holes st st') (hle : st.size ≤ st₁.size) :
    Placed f holes st₁ st' :=
  ⟨fun n hn => h.words n (Nat.le_trans hle hn), h.constants, h.registers⟩

/-- Holes that are elsewhere do not matter. -/
theorem Placed.whole (h : Placed f holes st st')
    (hout : ∀ n ∈ holes, n < st.size ∨ st'.size ≤ n) : Placed f [] st st' :=
  ⟨fun n hn hlt _ => h.words n hn hlt fun hmem => by have hn' := hout n hmem; omega,
    h.constants, h.registers⟩

theorem Placed.upTo (h : Placed f holes st st') (hstep : Step Good ps st₁ st' t) :
    Placed f holes st st₁ :=
  h.before hstep.keeps.current.code hstep.grows

theorem Placed.since (h : Placed f holes st st') (hstep : Step Good ps st st₁ t) :
    Placed f holes st₁ st' :=
  h.after hstep.grows.size

/-- The word that was just written is a word of the function. -/
theorem Placed.emitted (h : Placed f [] st st') (he : emit i st = .ok n st')
    (hs : Sound Good ps st) :
    f.prototype.chunk.code[st.size]? = some i ∧ st'.size = st.size + 1 := by
  obtain ⟨rfl, hword, hsize⟩ := emit_word he hs
  have hsize' : st'.size = st.size + 1 := hsize
  exact ⟨(h.words _ (Nat.le_refl _) (by omega) List.not_mem_nil).trans hword, hsize'⟩

theorem Placed.abc (h : Placed f [] st st') (he : emitAbc op a b c st = .ok u st')
    (hs : Sound Good ps st) (ha : a < 256) (hb : b < 256) (hc : c < 256) :
    (∃ i, IsWord f st.size op a b c i) ∧ st'.size = st.size + 1 := by
  obtain ⟨n, he⟩ := emitAbc_ok he
  obtain ⟨rfl, -⟩ := emit_word he hs
  obtain ⟨hword, hsize⟩ := h.emitted he hs
  exact ⟨⟨_, hword, Instruction.opcode?_abc op, Instruction.a_abc op ha, Instruction.b_abc op hb,
    Instruction.c_abc op hc⟩, hsize⟩

/-- A jump that was still to be patched is a hole. -/
theorem Placed.unpatched (h : Placed f holes st st') (hpatch : patchJump n t st₁ = .ok u st')
    (hs : Sound Good ps st₁) : Placed f (n :: holes) st st₁ := by
  have hsize := patchJump_size hpatch hs
  obtain ⟨-, rfl⟩ := patchWithin_ok hpatch
  obtain ⟨hwords, hconstants, hregisters⟩ := h
  rw [State.current_mapCurrent hs.exists_scope] at hwords hconstants hregisters
  refine ⟨fun j hj hlt hhole => ?_, hconstants, hregisters⟩
  have hne : j ≠ n := fun heq => hhole (heq ▸ List.mem_cons_self)
  rw [hwords j hj (hsize ▸ hlt) fun hmem => hhole (List.mem_cons_of_mem n hmem),
    FunctionScope.code_patched_ne hne]

theorem Placed.jump (h : Placed f holes st st') (hpatch : patchJump n t st₁ = .ok u st')
    (hs : Sound Good ps st₁) (hop : st₁.current.proto.opcodeAt? n = some .jump)
    (hle : st.size ≤ n) (hhole : n ∉ holes) : IsJump f n t := by
  have hsize := patchJump_size hpatch hs
  obtain ⟨hd, rfl⟩ := patchWithin_ok hpatch
  obtain ⟨i, hi, hjump⟩ := Prototype.opcodeAt?_eq_some_iff.mp hop
  have hword := h.words n hle (hsize ▸ Prototype.lt_size_of_word hi) hhole
  rw [State.current_mapCurrent hs.exists_scope, FunctionScope.code_patched hi] at hword
  refine ⟨_, hword, (Instruction.opcode?_withSignedAx i).trans hjump, ?_⟩
  rw [Instruction.signedAx_withSignedAx i hd, distance]
  omega

/-- A test with the jump behind it, which may still be open. -/
theorem Placed.test {st₂ : State} (h : Placed f holes st st') (htest : emitAbc .test a b 0 st = .ok u st₂)
    (hjump : emitJump st₂ = .ok n st') (hs : Sound Good ps st) (ha : a < 256) (hb : b < 256)
    (hhole : st.size ∉ holes) :
    (∃ i, IsWord f st.size .test a b 0 i) ∧ n = st.size + 1 ∧ st'.size = st.size + 2 := by
  obtain ⟨k, htest⟩ := emitAbc_ok htest
  have hop : (Instruction.abc .test a b 0).opcode? = some .test := Instruction.opcode?_abc _
  have hopen := emit_sound_open htest hs (by simp [hop])
  obtain ⟨rfl, hword, hsize₂⟩ := emit_word htest hs
  obtain ⟨rfl, -, hsize⟩ := emit_word hjump hopen
  have hadds := (emit_adds hjump hopen).code st.size (by rw [hsize₂]; exact Nat.lt_succ_self _)
  have hsize' : st'.size = st.size + 2 := by rw [State.size, hsize, hsize₂]
  have hplaced := h.words st.size (Nat.le_refl _) (by omega) hhole
  exact ⟨⟨_, (hplaced.trans hadds).trans hword, hop, Instruction.a_abc _ ha, Instruction.b_abc _ hb,
    Instruction.c_abc _ (by omega)⟩, hsize₂, hsize'⟩

end Placed

/-! ## Values of variables -/

/-- The variables of a program with the values of their registers, the innermost first. -/
def visible (f : Frame) (locals : Array Local) (m : Machine) : Variables :=
  (locals.toList.reverse.filter fun l => l.name != loopState).map fun l =>
    (l.name, m.reg f l.register)

/-- The machine has the values of the store. -/
def Holds (f : Frame) (locals : Array Local) (s : Store) (m : Machine) : Prop :=
  ∃ v, s.bindings = visible f locals m ++ [("_ENV", v)] ∧ Machine.Shows f v s.tables m

section Variables

variable {name : String} {tail : Variables} {ls : List Local} {value value' : Local → Value}
  {l : Local} {w : Value}

theorem lookup_visible (hname : name ≠ loopState) :
    (((ls.filter fun l => l.name != loopState).map fun l => (l.name, value l)) ++ tail).lookup name =
      match ls.find? fun l => l.name == name with
      | some l => some (value l)
      | none => tail.lookup name := by
  induction ls with
  | nil => rfl
  | cons l ls ih =>
    by_cases hl : l.name = name
    · have hne : (l.name != loopState) = true := by simpa [hl] using hname
      have heq : (l.name == name) = true := by simpa using hl
      simp only [List.filter_cons, hne, if_true, List.map_cons, List.cons_append, List.find?_cons,
        heq, List.lookup_cons, beq_iff_eq.mpr hl.symm]
    · have heq : (l.name == name) = false := by simpa using hl
      have hne : (name == l.name) = false := by simpa using Ne.symm hl
      rw [List.find?_cons, heq, ← ih, List.filter_cons]
      split
      · rw [List.map_cons, List.cons_append, List.lookup_cons, hne]
      · rfl

/-- Variables in other registers keep their values. -/
theorem set_visible (hfind : ls.find? (fun l => l.name == name) = some l)
    (hname : name ≠ loopState) (hdistinct : ls.Pairwise fun a b => b.register ≠ a.register)
    (hat : value' l = w) (hother : ∀ l' ∈ ls, l'.register ≠ l.register → value' l' = value l') :
    Variables.set (((ls.filter fun l => l.name != loopState).map fun l => (l.name, value l)) ++ tail)
        name w =
      ((ls.filter fun l => l.name != loopState).map fun l => (l.name, value' l)) ++ tail := by
  induction ls with
  | nil => cases hfind
  | cons l' ls ih =>
    obtain ⟨hhead, hrest⟩ := List.pairwise_cons.mp hdistinct
    have hother' : ∀ l'' ∈ ls, l''.register ≠ l.register → value' l'' = value l'' :=
      fun l'' hmem => hother l'' (List.mem_cons_of_mem l' hmem)
    by_cases hl : l'.name = name
    · have heq : (l'.name == name) = true := by simpa using hl
      rw [List.find?_cons, heq] at hfind
      have hll : l' = l := Option.some.inj hfind
      subst hll
      have hne : (l'.name != loopState) = true := by simpa [hl] using hname
      have htail : ∀ l'' ∈ ls.filter fun l => l.name != loopState,
          (l''.name, value l'') = (l''.name, value' l'') := fun l'' hmem => by
        rw [hother' l'' (List.mem_of_mem_filter hmem) (hhead l'' (List.mem_of_mem_filter hmem))]
      rw [List.filter_cons, if_pos hne, List.map_cons, List.map_cons, List.cons_append,
        List.cons_append, Variables.set, if_pos hl, hat, List.map_congr_left htail]
    · have heq : (l'.name == name) = false := by simpa using hl
      rw [List.find?_cons, heq] at hfind
      have hmem := List.mem_of_find?_eq_some hfind
      have hkept : value' l' = value l' :=
        hother l' List.mem_cons_self (Ne.symm (hhead l hmem))
      rw [List.filter_cons]
      split
      · rw [List.map_cons, List.map_cons, List.cons_append, List.cons_append, Variables.set,
          if_neg hl, hkept, ih hfind hrest hother']
      · exact ih hfind hrest hother'

theorem set_environment (hfind : ls.find? (fun l => l.name == "_ENV") = none) (v : Value) :
    Variables.set (((ls.filter fun l => l.name != loopState).map fun l => (l.name, value l)) ++
        [("_ENV", v)]) "_ENV" w =
      ((ls.filter fun l => l.name != loopState).map fun l => (l.name, value l)) ++
        [("_ENV", w)] := by
  induction ls with
  | nil => simp [Variables.set]
  | cons l ls ih =>
    have hall := List.find?_eq_none.mp hfind
    have hl : l.name ≠ "_ENV" := by simpa using hall l List.mem_cons_self
    have hrest : ls.find? (fun l => l.name == "_ENV") = none :=
      List.find?_eq_none.mpr fun l' hl' => hall l' (List.mem_cons_of_mem l hl')
    rw [List.filter_cons]
    split
    · rw [List.map_cons, List.cons_append, List.cons_append, Variables.set, if_neg hl, ih hrest]
    · exact ih hrest

end Variables

/-! ## The machine at a state of the compiler -/

/-- A running function that a native function waits for: the programs of the machine, the frames
below, and the function's own. None of its variables is captured. -/
structure Activation where
  code : Nat → Prototype
  outer : Machine.Surroundings
  frame : Frame
  toHost : frame.toHost = true
  wanted : frame.wanted = none
  opened : ∀ u ∈ outer.opened, u.1 < frame.base

abbrev Activation.At (g : Activation) (pc : Nat) (m : Machine) : Prop :=
  Machine.At g.code g.outer g.frame pc m

/-- The machine is about to perform the words that are written next, with the values of the store. -/
structure Here (g : Activation) (st : State) (s : Store) (m : Machine) : Prop where
  at' : g.At st.size m
  holds : Holds g.frame st.current.locals s m

section Here

open Machine (Spares Sets Shows Leads Tries)

variable {g : Activation} {Good : Prototype → Prop} {ps ps' : List Nat} {st st' : State} {s : Store}
  {m m' : Machine} {t pc line : Nat} {l : Local} {name : String} {v w : Value}

theorem register_lt_level (hs : Generator.Sound Good ps st) (hl : l ∈ st.current.locals) :
    l.register < st.level := hs.current.register_lt hl

theorem visible_congr {f : Frame} {locals : Array Local}
    (h : ∀ l ∈ locals, m'.reg f l.register = m.reg f l.register) :
    visible f locals m' = visible f locals m := by
  refine List.map_congr_left fun l hl => ?_
  have hmem : l ∈ locals := by simpa using List.mem_of_mem_filter hl
  rw [h l hmem]

theorem visible_of_stack {f : Frame} (locals : Array Local) (h : m'.stack = m.stack) :
    visible f locals m' = visible f locals m :=
  visible_congr fun l _ => by rw [Machine.reg, h]; rfl

/-- Variables that are spared still have their values. -/
theorem Here.keep (h : Here g st s m) (hs : Generator.Sound Good ps st)
    (hlocals : st'.current.locals = st.current.locals) (hat : g.At st'.size m')
    (hspares : Spares g.frame st.level m m') : Here g st' s m' := by
  obtain ⟨v, hvariables, hshows⟩ := h.holds
  refine ⟨hat, v, ?_, hshows.thins hat hspares.heap⟩
  rw [hlocals, visible_congr fun l hl => hspares.reg _ (register_lt_level hs hl)]
  exact hvariables

theorem Here.step (h : Here g st s m) (hs : Generator.Sound Good ps st)
    (hstep : Step Good ps' st st' t) (hat : g.At st'.size m')
    (hspares : Spares g.frame st.level m m') : Here g st' s m' :=
  h.keep hs hstep.keeps.current.locals hat hspares

/-- Nothing was written. -/
theorem Here.silent (h : Here g st s m) (hs : Generator.Sound Good ps st)
    (hstep : Step Good ps' st st' t) (hsize : st'.size = st.size) : Here g st' s m :=
  h.step hs hstep (hsize ▸ h.at') (.refl _ _ _)

theorem lookup_eq (hvariables : s.bindings = visible g.frame st.current.locals m ++ [("_ENV", v)])
    (hname : name ≠ loopState) :
    s.bindings.lookup name =
      match st.current.findLocal name with
      | some l => some (m.reg g.frame l.register)
      | none => if name = "_ENV" then some v else none := by
  rw [hvariables, visible, lookup_visible hname, FunctionScope.findLocal,
    Array.findRev?_eq_find?_reverse, ← Array.find?_toList, Array.toList_reverse]
  split
  · rfl
  · by_cases henv : name = "_ENV"
    · simp [henv]
    · have hne : (name == "_ENV") = false := by simpa using henv
      simp [List.lookup_cons, hne, henv]

theorem distinct_registers (hs : Generator.Sound Good ps st) :
    st.current.locals.toList.reverse.Pairwise fun a b => b.register ≠ a.register := by
  rw [List.pairwise_reverse, List.pairwise_iff_getElem]
  intro i j hi hj hij heq
  have hregister : ∀ n (hn : n < st.current.locals.toList.length),
      (st.current.locals.toList[n]).register = n := fun n hn =>
    hs.current.locals n _ (by rw [← Array.getElem?_toList]; exact List.getElem?_eq_getElem hn)
  rw [hregister i hi, hregister j hj] at heq
  omega

/-- A variable is assigned in its register. -/
theorem set_eq (hs : Generator.Sound Good ps st) (hl : st.current.findLocal name = some l)
    (hname : name ≠ loopState) (hset : Sets g.frame l.register [w] m m') (tail : Variables) :
    Variables.set (visible g.frame st.current.locals m ++ tail) name w =
      visible g.frame st.current.locals m' ++ tail := by
  rw [FunctionScope.findLocal, Array.findRev?_eq_find?_reverse, ← Array.find?_toList,
    Array.toList_reverse] at hl
  exact set_visible hl hname (distinct_registers hs) hset.at fun l' _ hne => hset.other hne

end Here

end Structured
end LuaMachine
