import LuaMachine.Proofs.Lowering.Shapes
import LuaMachine.Proofs.Machine.Working
import LuaMachine.Proofs.Structured.Words
/-! # What the code of an expression does

The code of an expression that calls nothing and makes no functions and no tables leaves the value
of the expression in its register, or it fails where the expression has none. The names may stand
for variables, for upvalues, which may be open, and for globals. The other registers in use, and all
slots below the function, keep their values.

* `Lowering.Simple`: the expressions.
* `Lowering.Site`, `Lowering.Site.Knows`: a running function, and the values of its names.
* `Lowering.Site.Leaves`: a value is left in a register.
* `Lowering.Site.Runs`: code that does so.
* `Lowering.Site.runs_codes`: the code of an expression.
-/
set_option autoImplicit false

namespace LuaMachine

/-! ## Single words -/

namespace Machine

open Structured Generator

variable {code : Nat → Prototype} {outer : Surroundings} {f : Frame} {pc n n' a b c t : Nat}
  {m : Machine} {op : Opcode} {k : Constant} {x : Upvalue}

namespace At

theorem active (h : At code outer f pc m) : Active code { f with next := pc } m := ⟨h.ready, h.back⟩

/-- The registers that a word names are registers of the function. -/
theorem runs_lt (h : At code outer f pc m) {i : Instruction}
    (hword : f.prototype.chunk.code[n]? = some i) (hop : i.opcode? = some op) :
    ∀ run ∈ op.runs i.a i.b i.c, ∀ k < run.2, run.1 + k < f.prototype.registers := by
  obtain ⟨op', hop', hvalid⟩ := h.active.codeValid.words n i hword
  obtain rfl : op' = op := Option.some.inj (hop'.symm.trans hop)
  exact hvalid.operands.registers

theorem target_lt (h : At code outer f pc m) {i : Instruction}
    (hword : f.prototype.chunk.code[n]? = some i) (hop : i.opcode? = some op)
    (hrun : (i.a, 1) ∈ op.runs i.a i.b i.c) : i.a < f.prototype.registers :=
  h.runs_lt hword hop _ hrun 0 Nat.one_pos

theorem loads (h : At code outer f pc m) (hw : f.prototype.Loads pc a k) :
    Yields code outer f (pc + 1) a (some k.value) m := by
  cases k with
  | nil =>
    obtain ⟨i, hword, hop, rfl, hb, -⟩ := hw
    have hlt := h.runs_lt hword hop (i.a, i.b) List.mem_cons_self 0 (by omega)
    refine (h.loadNil hword hop (by simp only at hlt; omega)).mono fun m' hm' => ?_
    rw [hb] at hm'
    exact hm'
  | bool v =>
    obtain ⟨i, hword, hop, rfl, hb, -⟩ := hw
    have hy := h.loadBool hword hop (h.target_lt hword hop (List.mem_singleton.mpr rfl))
    rw [hb] at hy
    cases v <;> exact hy
  | _ =>
    obtain ⟨x, ⟨i, hword, hop, rfl, hbx⟩, hk⟩ := hw
    exact h.loadConstant hword hop (h.target_lt hword hop (List.mem_singleton.mpr rfl))
      (by rw [hbx]; exact hk)

theorem moves (h : At code outer f pc m) (hw : f.prototype.HasWord pc .move a b c) :
    Yields code outer f (pc + 1) a (some (m.reg f b)) m := by
  obtain ⟨i, hword, hop, rfl, rfl, -⟩ := hw
  exact h.move hword hop (h.target_lt hword hop List.mem_cons_self)

theorem getsUpvalue (h : At code outer f pc m) (hw : f.prototype.HasWord pc .getUpvalue a b c)
    (hown : Own f b x m) : Yields code outer f (pc + 1) a (some (x.get m.stack)) m := by
  obtain ⟨i, hword, hop, rfl, rfl, -⟩ := hw
  exact h.getUpvalue hword hop hown (h.target_lt hword hop List.mem_cons_self)

theorem getsGlobal (h : At code outer f pc m) (hw : f.prototype.HasWord pc .getGlobal a b c)
    (hown : Own f b x m) (hk : f.prototype.chunk.constants[c]? = some k) :
    Yields code outer f (pc + 1) a (element m.heap.table (x.get m.stack) k.value) m := by
  obtain ⟨i, hword, hop, rfl, rfl, rfl⟩ := hw
  exact h.getGlobal hword hop hown (h.target_lt hword hop List.mem_cons_self) hk

theorem getsField (h : At code outer f pc m) (hw : f.prototype.HasWord pc .getField a b c)
    (hk : f.prototype.chunk.constants[c]? = some k) :
    Yields code outer f (pc + 1) a (element m.heap.table (m.reg f b) k.value) m := by
  obtain ⟨i, hword, hop, rfl, rfl, rfl⟩ := hw
  exact h.getField hword hop (h.target_lt hword hop List.mem_cons_self) hk

theorem getsTable (h : At code outer f pc m) (hw : f.prototype.HasWord pc .getTable a b c) :
    Yields code outer f (pc + 1) a (element m.heap.table (m.reg f b) (m.reg f c)) m := by
  obtain ⟨i, hword, hop, rfl, rfl, rfl⟩ := hw
  exact h.getTable hword hop (h.target_lt hword hop List.mem_cons_self)

theorem concats (h : At code outer f pc m) (hw : f.prototype.HasWord pc .concat a b c)
    (hc : 0 < c) :
    Yields code outer f (pc + 1) a
      ((joined ((List.range c).map fun j => m.reg f (b + j))).map .str) m := by
  obtain ⟨i, hword, hop, rfl, rfl, rfl⟩ := hw
  have hlt := h.runs_lt hword hop (i.b, i.c) (by simp [Opcode.runs]) (i.c - 1)
    (by simp only; omega)
  exact h.concat hword hop (h.target_lt hword hop List.mem_cons_self) (by simp only at hlt; omega)

theorem nots (h : At code outer f pc m) (hw : f.prototype.HasWord pc .not a b c) :
    Yields code outer f (pc + 1) a (some (.bool (m.reg f b).isFalsey)) m := by
  obtain ⟨i, hword, hop, rfl, rfl, -⟩ := hw
  exact h.not hword hop (h.target_lt hword hop List.mem_cons_self)

theorem unaries {o : UnaryOp} (h : At code outer f pc m)
    (hw : f.prototype.HasWord pc (unaryOpcode o) a b c) :
    Yields code outer f (pc + 1) a (unaryValue m.heap.table o (m.reg f b)) m := by
  cases o with
  | negate =>
    obtain ⟨i, hword, hop, rfl, rfl, -⟩ := hw
    exact h.unary (o := .unm) hword (h.target_lt hword hop List.mem_cons_self)
      fun g => by simp only [Machine.perform, hop, unaryOpcode]
  | complement =>
    obtain ⟨i, hword, hop, rfl, rfl, -⟩ := hw
    exact h.unary (o := .bnot) hword (h.target_lt hword hop List.mem_cons_self)
      fun g => by simp only [Machine.perform, hop, unaryOpcode]
  | not => exact h.nots hw
  | length =>
    obtain ⟨i, hword, hop, rfl, rfl, -⟩ := hw
    exact h.length hword hop (h.target_lt hword hop List.mem_cons_self)

theorem operates {o : BinaryOp} (h : At code outer f pc m)
    (hw : Lowering.Operates f.prototype o a b c pc n') :
    Yields code outer f n' a (binaryValue o (m.reg f b) (m.reg f c)) m := by
  cases o with
  | and | or | concat => exact hw.elim
  | ne =>
    obtain ⟨⟨i, hword, hop, rfl, rfl, rfl⟩, hnot, rfl⟩ := hw
    have hequal := h.compare (o := fun x y => .ok (x.rawEq y)) hword
      (h.target_lt hword hop List.mem_cons_self) fun g => by simp only [Machine.perform, hop]
    refine Leads.andThen hequal fun m₁ hm₁ => ?_
    have hy := hm₁.1.nots hnot
    rw [hm₁.2.at] at hy
    exact Leads.mono hy fun m₂ hm₂ => ⟨hm₂.1, hm₁.2.again hm₂.2⟩
  | eq =>
    obtain ⟨⟨i, hword, hop, rfl, rfl, rfl⟩, rfl⟩ := hw
    exact h.compare (o := fun x y => .ok (x.rawEq y)) hword
      (h.target_lt hword hop List.mem_cons_self) fun g => by simp only [Machine.perform, hop]
  | lt | le | gt | ge =>
    obtain ⟨⟨i, hword, hop, rfl, rfl, rfl⟩, rfl⟩ := hw
    exact h.compare hword (h.target_lt hword hop List.mem_cons_self)
      fun g => by simp only [Machine.perform, hop]
  | _ =>
    obtain ⟨⟨i, hword, hop, rfl, rfl, rfl⟩, rfl⟩ := hw
    exact h.arithmetic hword (h.target_lt hword hop List.mem_cons_self)
      fun g => by simp only [Machine.perform, hop]

/-- After a test the machine goes over the jump behind it, or takes it. -/
theorem tests (h : At code outer f pc m) (hw : f.prototype.HasWord pc .test a b c)
    (hjump : f.prototype.HasJump (pc + 1) t) :
    Leads 1 m fun m' => At code outer f (if (m.reg f a).isTruthy != (b != 0) then pc + 2 else t) m' ∧
      m'.stack = m.stack ∧ m'.heap = m.heap := by
  obtain ⟨i, hword, hop, rfl, rfl, -⟩ := hw
  have htest := h.test hword hop
  by_cases hover : ((m.reg f i.a).isTruthy != (i.b != 0)) = true
  · rw [if_pos hover] at htest ⊢
    exact htest
  · rw [if_neg hover] at htest ⊢
    refine Leads.andThen htest ?_
    rintro m₁ ⟨hat₁, hstack₁, hheap₁⟩
    obtain ⟨j, hword', hop', htarget⟩ := hjump
    exact (hat₁.jump hword' hop' htarget).mono fun m₂ h₂ =>
      ⟨h₂.1, h₂.2.1.trans hstack₁, h₂.2.2.trans hheap₁⟩

end At
end Machine

/-! ## Values of operators -/

namespace Structured

open Generator
open Machine (joined)

variable {s : Store} {l k : Expr} {line : Nat}

theorem value_operator {o : BinaryOp} (hand : o ≠ .and) (hor : o ≠ .or) :
    value s (.binary o l k line) =
      (value s l).bind fun x => (value s k).bind fun y => binaryValue o x y := by
  cases o with
  | and => exact absurd rfl hand
  | or => exact absurd rfl hor
  | _ => rfl

/-- The operands of a chain of concatenations. -/
def operands : Expr → List Expr
  | .binary .concat l r _ => l :: operands r
  | e => [e]

theorem length_operands (e : Expr) : (operands e).length = chainLength e := by
  fun_induction operands e with
  | case1 l r line ih => rw [List.length_cons, ih, chainLength]
  | case2 e h =>
    unfold chainLength
    split
    · exact (h _ _ _ rfl).elim
    · rfl

/-- A chain contributes the text of its operands. -/
theorem piece_operands (s : Store) (e : Expr) :
    (value s e).bind piece = ((operands e).mapM (value s)).bind joined := by
  fun_induction operands e with
  | case1 l r line ih =>
    have hleft : (value s (.binary .concat l r line)).bind piece = (value s l).bind fun x =>
        (piece x).bind fun p => ((value s r).bind piece).map (p ++ ·) := by
      have hvalue : value s (.binary .concat l r line) =
          (value s l).bind fun x => (value s r).bind fun y => binaryValue .concat x y := rfl
      rw [hvalue]
      cases value s l with
      | none => rfl
      | some x =>
        cases value s r with
        | none => cases piece x <;> simp
        | some y =>
          have hstr : ∀ t, piece (.str t) = some t := fun _ => rfl
          cases hx : piece x <;> cases hy : piece y <;> simp [binaryValue, hx, hy, hstr]
    have hright : ((l :: operands r).mapM (value s)).bind joined = (value s l).bind fun x =>
        (piece x).bind fun p => (((operands r).mapM (value s)).bind joined).map (p ++ ·) := by
      rw [List.mapM_cons]
      cases value s l with
      | none => rfl
      | some x =>
        cases (operands r).mapM (value s) with
        | none => cases piece x <;> simp
        | some vs => cases hx : piece x <;> cases hvs : joined vs <;> simp [joined, hx, hvs]
    rw [hleft, hright, ih]
  | case2 e h =>
    cases hv : value s e with
    | none => simp [hv]
    | some v => cases hp : piece v <;> simp [hv, joined, hp]

theorem value_concat (s : Store) (l k : Expr) (line : Nat) :
    value s (.binary .concat l k line) =
      ((operands (.binary .concat l k line)).mapM (value s)).bind fun vs =>
        (joined vs).map .str := by
  have hchain := piece_operands s (.binary .concat l k line)
  have htext : ∀ {x : Option Value}, (∀ v, x = some v → ∃ t, v = .str t) →
      x = (x.bind piece).map .str := fun {x} hx => by
    cases x with
    | none => rfl
    | some v =>
      obtain ⟨t, rfl⟩ := hx v rfl
      rfl
  have hvalue : ∀ v, value s (.binary .concat l k line) = some v → ∃ t, v = .str t := fun v hv => by
    have hv' : ((value s l).bind fun x => (value s k).bind fun y => binaryValue .concat x y) =
        some v := hv
    simp only [Option.bind_eq_some_iff, binaryValue, Option.pure_def, Option.bind_eq_bind,
      Option.some.injEq] at hv'
    obtain ⟨x, -, y, -, p, -, q, -, rfl⟩ := hv'
    exact ⟨_, rfl⟩
  rw [htext hvalue, hchain]
  cases (operands (.binary .concat l k line)).mapM (value s) <;> rfl

theorem length_of_mapM {α β : Type} {f : α → Option β} {as : List α} {bs : List β}
    (h : as.mapM f = some bs) : bs.length = as.length := by
  induction as generalizing bs with
  | nil =>
    obtain rfl : [] = bs := by simpa using h
    rfl
  | cons a as ih =>
    simp only [List.mapM_cons, Option.bind_eq_bind, Option.bind_eq_some_iff, Option.pure_def,
      Option.some.injEq] at h
    obtain ⟨b, -, bs', hbs, rfl⟩ := h
    rw [List.length_cons, List.length_cons, ih hbs]

end Structured

namespace Lowering

open Structured Generator
open Machine (Spares Sets Yields Leads Tries Fails Own Under joined)

/-! ## Expressions and the values of names -/

/-- Expressions that call nothing and make no functions and no tables, with names of one kind. -/
def Simple (names : String → Prop) : Expr → Prop
  | .literal _ _ => True
  | .str _ _ => True
  | .unary _ e _ => Simple names e
  | .binary _ a b _ => Simple names a ∧ Simple names b
  | .name n _ => names n
  | .paren e _ => Simple names e
  | .index e k _ => Simple names e ∧ Simple names k
  | _ => False

/-- A running function, the names that its expressions may have and where it finds them, and the
number of registers that belong to variables. -/
structure Site where
  code : Nat → Prototype
  outer : Machine.Surroundings
  frame : Frame
  names : String → Prop
  home : String → Home
  low : Nat

namespace Site

abbrev At (g : Site) (pc : Nat) (m : Machine) : Prop := Machine.At g.code g.outer g.frame pc m

/-- The value of a name, by where it is found. Open upvalues stand for slots below the registers
that expressions use. -/
def Stands (g : Site) (m : Machine) (x : Option Value) : Home → Prop
  | .register r => r < g.low ∧ x = some (m.reg g.frame r)
  | .upvalue i => ∃ u, Own g.frame i u m ∧ (∀ s, u = .opened s → s < g.frame.base + g.low) ∧
      x = some (u.get m.stack)
  | .global => x = none

/-- The machine has the values of the store. -/
structure Knows (g : Site) (s : Store) (m : Machine) : Prop where
  environment : g.names "_ENV"
  names : ∀ name, g.names name → g.Stands m (s.bindings.lookup name) (g.home name)
  tables : ∀ (r : Ref) (t : Table), m.heap.cells[r]? = some (.table t) → s.tables r = t

/-- The machine goes on at a word with the value in register `r`; the other registers below `t` and
all slots below the function are as they were. -/
structure Leaves (g : Site) (pc r t : Nat) (v : Value) (m m' : Machine) : Prop where
  at' : g.At pc m'
  reg : m'.reg g.frame r = v
  others : ∀ j < t, j ≠ r → m'.reg g.frame j = m.reg g.frame j
  heap : m.heap.Thins m'.heap
  under : Under g.frame m m'

/-- The code of a part leaves the value in its register, or fails if there is none. -/
def Runs (g : Site) (part : Part) (x : Store → Option Value) : Prop :=
  ∀ ⦃r t n n' : Nat⦄ ⦃s : Store⦄ ⦃m : Machine⦄, part r t n n' → g.low ≤ r → r < t → g.At n m →
    g.Knows s m → Tries (x s) m (g.Leaves n' r t · m)

variable {g : Site} {s : Store} {m m' m'' : Machine} {pc n n' r t t' o line : Nat} {v w : Value}
  {x : Option Value} {a b e k : Expr} {first second part rest : Part} {name : String}

theorem Knows.element_eq (h : g.Knows s m) {object : Value} (hobject : m.heap.Has object)
    (key : Value) : element m.heap.table object key = element s.tables object key := by
  cases object with
  | table r =>
    obtain ⟨t, ht⟩ := hobject
    simp only [element, Heap.table_eq ht, h.tables r t ht]
  | _ => rfl

theorem Knows.length_eq (h : g.Knows s m) {v : Value} (hv : m.heap.Has v) :
    unaryValue m.heap.table .length v = unaryValue s.tables .length v := by
  cases v with
  | table r =>
    obtain ⟨t, ht⟩ := hv
    simp only [unaryValue, Heap.table_eq ht, h.tables r t ht]
  | _ => rfl

/-- The names keep their values while the registers of variables are spared. -/
theorem Knows.keep (h : g.Knows s m) (hat : g.At pc m') (hspares : Spares g.frame g.low m m') :
    g.Knows s m' where
  environment := h.environment
  names name hname := by
    have hstands := h.names name hname
    cases hhome : g.home name with
    | register r =>
      rw [hhome] at hstands
      exact ⟨hstands.1, by rw [hspares.reg r hstands.1]; exact hstands.2⟩
    | upvalue i =>
      rw [hhome] at hstands
      obtain ⟨u, hown, hlow, hvalue⟩ := hstands
      refine ⟨u, hown.thins hat hspares.heap, hlow, ?_⟩
      rw [hvalue]
      cases u with
      | closed v => rfl
      | opened slot =>
        have hlt := hlow slot rfl
        by_cases hunder : slot < g.frame.base
        · exact congrArg some (hspares.under slot hunder).symm
        · have hreg := hspares.reg (slot - g.frame.base) (by omega)
          unfold Machine.reg at hreg
          rw [Nat.add_sub_cancel' (Nat.le_of_not_lt hunder)] at hreg
          exact congrArg some hreg.symm
    | global =>
      rw [hhome] at hstands
      exact hstands
  tables r t ht := h.tables r t (hspares.heap _ _ ht Object.noConfusion)

namespace Leaves

theorem spares (h : g.Leaves pc r t v m m') (hr : t' ≤ r) (ht : t' ≤ t) :
    Spares g.frame t' m m' :=
  ⟨h.heap, fun j hj => h.others j (by omega) (by omega), h.under⟩

/-- What was done before spared the registers too. -/
theorem after (h : g.Leaves pc r t v m' m'') (hspares : Spares g.frame t m m') :
    g.Leaves pc r t v m m'' :=
  ⟨h.at', h.reg, fun j hj hne => (h.others j hj hne).trans (hspares.reg j hj),
    hspares.heap.trans h.heap, hspares.under.trans h.under⟩

/-- The register is set again. -/
theorem again (h : g.Leaves pc r t v m m') (h' : g.Leaves n r t w m' m'') :
    g.Leaves n r t w m m'' :=
  ⟨h'.at', h'.reg, fun j hj hne => (h'.others j hj hne).trans (h.others j hj hne),
    h.heap.trans h'.heap, h.under.trans h'.under⟩

theorem knows (h : g.Leaves pc r t v m m') (hk : g.Knows s m) (hr : g.low ≤ r) (hlt : r < t) :
    g.Knows s m' :=
  hk.keep h.at' (h.spares hr (by omega))

end Leaves

theorem leaves_of_yields (h : Yields g.code g.outer g.frame pc r x m) :
    Tries x m (g.Leaves pc r t · m) :=
  h.mono fun _ _ _ hm' => ⟨hm'.1, hm'.2.at, fun _ _ hne => hm'.2.other hne, hm'.2.heap, hm'.2.under⟩

/-! ## Constants and names -/

theorem runs_constant {k : Constant} : g.Runs (fun r _ n n' =>
    g.frame.prototype.Loads n r k ∧ n' = n + 1) fun _ => some k.value := by
  rintro r t n n' s m ⟨hloads, rfl⟩ - - hat -
  exact leaves_of_yields (hat.loads hloads)

theorem Knows.read_register (h : g.Knows s m) (hname : g.names name)
    (hhome : g.home name = .register r) : r < g.low ∧ s.read name = some (m.reg g.frame r) := by
  have hstands := h.names name hname
  rw [hhome] at hstands
  exact ⟨hstands.1, by rw [Store.read, hstands.2]⟩

theorem Knows.read_upvalue {i : Nat} (h : g.Knows s m) (hname : g.names name)
    (hhome : g.home name = .upvalue i) :
    ∃ u, Own g.frame i u m ∧ s.read name = some (u.get m.stack) := by
  have hstands := h.names name hname
  rw [hhome] at hstands
  obtain ⟨u, hown, -, hvalue⟩ := hstands
  exact ⟨u, hown, by rw [Store.read, hvalue]⟩

/-- A global is a field of the table that `_ENV` stands for. -/
theorem Knows.read_global (h : g.Knows s m) (hname : g.names name) (hhome : g.home name = .global)
    (henv : s.bindings.lookup "_ENV" = some v) :
    s.read name = element s.tables v (.str name) := by
  have hstands := h.names name hname
  rw [hhome] at hstands
  rw [Store.read, hstands, henv]
  rfl

theorem runs_global (hname : g.names name) (hhome : g.home name = .global) :
    g.Runs (ReadsGlobal g.frame.prototype g.home name) fun s => s.read name := by
  intro r t n n' s m hpart hlow hlt hat hk
  have hstands := hk.names "_ENV" hk.environment
  unfold ReadsGlobal at hpart
  split at hpart
  next l hl =>
    rw [hl] at hstands
    have hread := hk.read_global hname hhome hstands.2
    show Tries (s.read name) m _
    rw [hread]
    rcases hpart with ⟨c, hc, hword, rfl⟩ | ⟨hloads, hword, rfl⟩
    · have hy := hat.getsField hword hc
      rw [hk.element_eq (hat.reg_has l)] at hy
      exact leaves_of_yields hy
    · refine (hat.loads hloads).tries ?_
      rintro m₁ ⟨hat₁, hsets⟩
      have hlt := hstands.1
      have hk₁ := hk.keep hat₁ (hsets.spares (by omega))
      have hy := hat₁.getsTable hword
      rw [hk₁.element_eq (hat₁.reg_has l), hsets.below (by omega), hsets.at] at hy
      exact (leaves_of_yields hy).mono fun w m₂ _ hm₂ => hm₂.after (hsets.spares (Nat.le_refl t))
  next i hi =>
    rw [hi] at hstands
    obtain ⟨u, hown, hopened, hvalue⟩ := hstands
    have hread := hk.read_global hname hhome hvalue
    show Tries (s.read name) m _
    rw [hread]
    rcases hpart with ⟨c, hc, hword, rfl⟩ | ⟨hget, hloads, hword, rfl⟩
    · have hy := hat.getsGlobal hword hown hc
      rw [hk.element_eq (hat.has_own hown)] at hy
      exact leaves_of_yields hy
    · refine (hat.getsUpvalue hget hown).tries ?_
      rintro m₁ ⟨hat₁, hsets₁⟩
      refine (hat₁.loads hloads).tries ?_
      rintro m₂ ⟨hat₂, hsets₂⟩
      have hspares : Spares g.frame t m m₂ :=
        (hsets₁.spares (Nat.le_refl t)).trans (hsets₂.spares (by omega))
      have hk₂ := hk.keep hat₂ (hspares.weaken (by omega))
      have hy := hat₂.getsTable hword
      rw [hk₂.element_eq (hat₂.reg_has t), hsets₂.below (by omega), hsets₁.at, hsets₂.at] at hy
      exact (leaves_of_yields hy).mono fun w m₃ _ hm₃ => hm₃.after hspares
  next => exact hpart.elim

theorem runs_name (hname : g.names name) :
    g.Runs (ReadsName g.frame.prototype g.home name) fun s => s.read name := by
  intro r t n n' s m hpart hlow hlt hat hk
  unfold ReadsName at hpart
  split at hpart
  next l hl =>
    obtain ⟨hlt, hread⟩ := hk.read_register hname hl
    rw [if_neg (by omega)] at hpart
    show Tries (s.read name) m _
    rw [hread, hpart.2]
    exact leaves_of_yields (hat.moves hpart.1)
  next i hi =>
    obtain ⟨u, hown, hread⟩ := hk.read_upvalue hname hi
    show Tries (s.read name) m _
    rw [hread, hpart.2]
    exact leaves_of_yields (hat.getsUpvalue hpart.1 hown)
  next hglobal => exact runs_global hname hglobal hpart hlow hlt hat hk

/-! ## Operators -/

/-- An operand is in its register, and the registers that were in use are spared. -/
theorem runs_operand (hpart : g.Runs part fun s => value s e) (he : Simple g.names e)
    (h : Operand g.home e part o t t' n n') (hlow : g.low ≤ t) (hat : g.At n m)
    (hk : g.Knows s m) :
    (o < t' ∧ t ≤ t') ∧ Tries (value s e) m fun v m' =>
      g.At n' m' ∧ m'.reg g.frame o = v ∧ Spares g.frame t m m' := by
  rcases h with ⟨name, line, rfl, hhome, rfl, rfl⟩ | ⟨rfl, rfl, hcode⟩
  · obtain ⟨hlt, hread⟩ := hk.read_register he hhome
    refine ⟨by omega, ?_⟩
    rw [value, hread]
    exact .here ⟨hat, rfl, .refl _ _ _⟩
  · refine ⟨by omega, (hpart hcode hlow (by omega) hat hk).mono fun v m' _ hm' => ?_⟩
    exact ⟨hm'.at', hm'.reg, hm'.spares (Nat.le_refl _) (by omega)⟩

theorem unaryValue_eq {op : UnaryOp} (hk : g.Knows s m) (hv : m.heap.Has v) :
    unaryValue m.heap.table op v = unaryValue s.tables op v := by
  cases op with
  | length => exact hk.length_eq hv
  | _ => rfl

theorem runs_unary {op : UnaryOp} (he : Simple g.names e) (hpart : g.Runs part fun s => value s e) :
    g.Runs (OfUnary g.frame.prototype g.home op e part) fun s => value s (.unary op e line) := by
  rintro r t n n' s m ⟨o, t', n₁, hoperand, hword, rfl⟩ hlow hlt hat hk
  refine Tries.bind (runs_operand hpart he hoperand (by omega) hat hk).2 ?_
  rintro v m₁ - ⟨hat₁, rfl, hspares⟩
  have hk₁ := hk.keep hat₁ (hspares.weaken (by omega))
  have hy := hat₁.unaries hword
  rw [unaryValue_eq hk₁ (hat₁.reg_has o)] at hy
  exact (leaves_of_yields hy).mono fun w m₂ _ hm₂ => hm₂.after hspares

theorem runs_operator {op : BinaryOp} (ha : Simple g.names a) (hb : Simple g.names b)
    (hfirst : g.Runs first fun s => value s a) (hsecond : g.Runs second fun s => value s b) :
    g.Runs (OfOperator g.frame.prototype g.home op a b first second)
      fun s => value s (.binary op a b line) := by
  rintro r t n n' s m ⟨x, y, t₁, t₂, n₁, n₂, hx, hy, hoperates⟩ hlow hlt hat hk
  have hand : op ≠ .and := fun h => by rw [h] at hoperates; exact hoperates
  have hor : op ≠ .or := fun h => by rw [h] at hoperates; exact hoperates
  obtain ⟨⟨hxlt, hle⟩, hx⟩ := runs_operand hfirst ha hx (by omega) hat hk
  show Tries (value s (.binary op a b line)) m _
  rw [value_operator hand hor]
  refine Tries.bind hx ?_
  rintro v m₁ - ⟨hat₁, rfl, hspares₁⟩
  have hk₁ := hk.keep hat₁ (hspares₁.weaken (by omega))
  refine Tries.bind (runs_operand hsecond hb hy (by omega) hat₁ hk₁).2 ?_
  rintro w m₂ - ⟨hat₂, rfl, hspares₂⟩
  have hy := hat₂.operates hoperates
  rw [hspares₂.reg x hxlt] at hy
  exact (leaves_of_yields hy).mono fun w m₃ _ hm₃ =>
    hm₃.after (hspares₁.trans (hspares₂.weaken hle))

/-- The second operand has a value only if the first one does not decide. -/
theorem runs_shortCircuit {op : BinaryOp} (hop : op = .and ∨ op = .or)
    (hfirst : g.Runs first fun s => value s a) (hsecond : g.Runs second fun s => value s b) :
    g.Runs (OfShortCircuit g.frame.prototype op first second)
      fun s => value s (.binary op a b line) := by
  rintro r t n n' s m ⟨n₁, hcode, htest, hjump, hcode'⟩ hlow hlt hat hk
  have hvalue : value s (.binary op a b line) = (value s a).bind fun x =>
      if x.isTruthy != ((if op = .or then 1 else 0) != 0) then value s b else some x := by
    rcases hop with rfl | rfl <;>
    · cases hx : value s a with
      | none => simp [value, hx]
      | some x => cases hfalsey : x.isFalsey <;> simp [value, hx, Value.isTruthy, hfalsey]
  show Tries (value s (.binary op a b line)) m _
  rw [hvalue]
  refine Tries.bind (hfirst hcode hlow hlt hat hk) fun x m₁ _ hm₁ => ?_
  refine (hm₁.at'.tests htest hjump).tries ?_
  rintro m₂ ⟨hat₂, hstack, hheap⟩
  rw [hm₁.reg] at hat₂
  have hsame : Spares g.frame t m₁ m₂ := .of_eq hstack hheap
  by_cases hover : (x.isTruthy != ((if op = .or then 1 else 0) != 0)) = true
  · rw [if_pos hover] at hat₂ ⊢
    have hk₂ := (hm₁.knows hk hlow hlt).keep hat₂ (hsame.weaken (by omega))
    exact (hsecond hcode' hlow hlt hat₂ hk₂).mono fun w m₃ _ hm₃ => hm₁.again (hm₃.after hsame)
  · rw [if_neg hover] at hat₂ ⊢
    refine .here (hm₁.again ⟨hat₂, ?_, fun j _ _ => ?_, hsame.heap, hsame.under⟩)
    · rw [Machine.reg, hstack]
      exact hm₁.reg
    · rw [Machine.reg, hstack]
      rfl

theorem runs_index (he : Simple g.names e) (hk : Simple g.names k)
    (hobject : g.Runs first fun s => value s e) (hkey : g.Runs second fun s => value s k) :
    g.Runs (OfIndex g.frame.prototype g.home e k first second)
      fun s => value s (.index e k line) := by
  rintro r t n n' s m ⟨x, t₁, n₁, hx, hget⟩ hlow hlt hat hknows
  have hvalue : value s (.index e k line) =
      (value s e).bind fun x => (value s k).bind fun y => element s.tables x y := rfl
  show Tries (value s (.index e k line)) m _
  rw [hvalue]
  obtain ⟨⟨hxlt, hle⟩, hx⟩ := runs_operand hobject he hx (by omega) hat hknows
  refine Tries.bind hx ?_
  rintro v m₁ - ⟨hat₁, rfl, hspares₁⟩
  have hknows₁ := hknows.keep hat₁ (hspares₁.weaken (by omega))
  rcases hget with ⟨name, nameLine, c, rfl, hc, hword, rfl⟩ | ⟨y, t₂, n₂, hy, hword, rfl⟩
  · have hy := hat₁.getsField hword hc
    rw [hknows₁.element_eq (hat₁.reg_has x)] at hy
    exact (leaves_of_yields hy).mono fun w m₂ _ hm₂ => hm₂.after hspares₁
  · refine Tries.bind (runs_operand hkey hk hy (by omega) hat₁ hknows₁).2 ?_
    rintro w m₂ - ⟨hat₂, rfl, hspares₂⟩
    have hknows₂ := hknows₁.keep hat₂ (hspares₂.weaken (by omega))
    have hy := hat₂.getsTable hword
    rw [hknows₂.element_eq (hat₂.reg_has x), hspares₂.reg x hxlt] at hy
    exact (leaves_of_yields hy).mono fun w m₃ _ hm₃ =>
      hm₃.after (hspares₁.trans (hspares₂.weaken hle))

/-! ## Concatenation -/

/-- The code of the operands of a chain leaves their values in consecutive registers. -/
def RunsChain (g : Site) (e : Expr) (part : Part) : Prop :=
  ∀ ⦃r t n n' : Nat⦄ ⦃s : Store⦄ ⦃m : Machine⦄, part r t n n' → g.low ≤ r →
    r + chainLength e ≤ t → g.At n m → g.Knows s m →
    Tries ((operands e).mapM (value s)) m fun vs m' => g.At n' m' ∧ Spares g.frame r m m' ∧
      ∀ j w, vs[j]? = some w → m'.reg g.frame (r + j) = w

theorem runsChain_single (hsingle : operands e = [e]) (hpart : g.Runs part fun s => value s e) :
    g.RunsChain e part := by
  intro r t n n' s m hcode hlow hfit hat hk
  have hpos := chainLength_pos e
  have hvalues : (operands e).mapM (value s) = (value s e).bind fun v => some [v] := by
    rw [hsingle]
    cases hv : value s e <;> simp [hv]
  rw [hvalues]
  refine Tries.bind (hpart hcode hlow (by omega) hat hk) fun v m₁ _ hm₁ => ?_
  refine .here ⟨hm₁.at', hm₁.spares (Nat.le_refl r) (by omega), fun j w hj => ?_⟩
  cases j with
  | zero =>
    obtain rfl : v = w := by simpa using hj
    exact hm₁.reg
  | succ j => simp at hj

theorem runsChain_cons (line : Nat) (hfirst : g.Runs first fun s => value s a)
    (hrest : g.RunsChain b rest) :
    g.RunsChain (.binary .concat a b line) fun r t n n' =>
      ∃ n₁, first r t n n₁ ∧ rest (r + 1) t n₁ n' := by
  rintro r t n n' s m ⟨n₁, hcode, hcode'⟩ hlow hfit hat hk
  have hfit' : r + (chainLength b + 1) ≤ t := hfit
  have hvalues : (operands (.binary .concat a b line)).mapM (value s) =
      (value s a).bind fun v => ((operands b).mapM (value s)).map (v :: ·) := by
    rw [operands, List.mapM_cons]
    cases hv : value s a with
    | none => rfl
    | some v => cases hvs : (operands b).mapM (value s) <;> simp
  rw [hvalues]
  refine Tries.bind (hfirst hcode hlow (by omega) hat hk) fun v m₁ _ hm₁ => ?_
  have hk₁ := hm₁.knows hk hlow (by omega)
  refine (hrest hcode' (by omega) (by omega) hm₁.at' hk₁).map ?_
  rintro vs m₂ - ⟨hat₂, hspares, hregs⟩
  refine ⟨hat₂, (hm₁.spares (Nat.le_refl r) (by omega)).trans (hspares.weaken (Nat.le_succ r)),
    fun j w hj => ?_⟩
  cases j with
  | zero =>
    obtain rfl : v = w := by simpa using hj
    exact (hspares.reg r (Nat.lt_succ_self r)).trans hm₁.reg
  | succ j =>
    rw [show r + (j + 1) = r + 1 + j by omega]
    exact hregs j w (by simpa using hj)

/-- The values of the operands are in consecutive registers, so they are the pieces of the text. -/
theorem runs_chain (hfirst : g.Runs first fun s => value s a) (hrest : g.RunsChain b rest) :
    g.Runs (OfChain g.frame.prototype (chainLength b + 1) first rest)
      fun s => value s (.binary .concat a b line) := by
  rintro r t n n' s m ⟨n₁, n₂, hcode, hcode', hword, rfl⟩ hlow hlt hat hk
  have hchain := runsChain_cons line hfirst hrest (r := t) (t := t + (chainLength b + 1))
    ⟨n₁, hcode, hcode'⟩ (by omega) (Nat.le_refl _) hat hk
  show Tries (value s (.binary .concat a b line)) m _
  rw [value_concat]
  refine Tries.bind hchain ?_
  rintro vs m₁ hvs ⟨hat₁, hspares, hregs⟩
  have hlength : vs.length = chainLength b + 1 := by
    rw [length_of_mapM hvs, length_operands]
    rfl
  have hy := hat₁.concats hword (Nat.succ_pos _)
  have hpieces : ((List.range (chainLength b + 1)).map fun j => m₁.reg g.frame (t + j)) = vs := by
    apply List.ext_getElem?
    intro j
    rw [List.getElem?_map]
    by_cases hj : j < chainLength b + 1
    · rw [List.getElem?_range hj, List.getElem?_eq_getElem (by omega)]
      exact congrArg some (hregs j _ (List.getElem?_eq_getElem (by omega)))
    · rw [List.getElem?_eq_none (by simpa using hj), List.getElem?_eq_none (by omega)]
      rfl
  rw [hpieces] at hy
  exact (leaves_of_yields hy).mono fun w m₂ _ hm₂ => hm₂.after hspares

/-! ## The induction -/

theorem runs_folded {e : Expr} (hpart : g.Runs part fun s => value s e) :
    g.Runs (Folded g.frame.prototype e part) fun s => value s e := by
  rintro r t n n' s m (⟨k, hfold, hloads⟩ | hcode) hlow hlt hat hk
  show Tries (value s e) m _
  · rw [value_of_fold hfold]
    exact runs_constant hloads hlow hlt hat hk
  · exact hpart hcode hlow hlt hat hk

theorem runs_binary (op : BinaryOp) (line : Nat) (ha : Simple g.names a) (hb : Simple g.names b)
    (hfirst : g.Runs first fun s => value s a) (hsecond : g.Runs second fun s => value s b)
    (hrest : g.RunsChain b rest) :
    g.Runs (Folded g.frame.prototype (.binary op a b line)
      (OfBinary g.frame.prototype g.home op a b first second rest))
      fun s => value s (.binary op a b line) := by
  refine runs_folded fun r t n n' s m hcode hlow hlt hat hk => ?_
  unfold OfBinary at hcode
  split at hcode
  · exact runs_shortCircuit (.inl rfl) hfirst hsecond hcode hlow hlt hat hk
  · exact runs_shortCircuit (.inr rfl) hfirst hsecond hcode hlow hlt hat hk
  · exact runs_chain hfirst hrest hcode hlow hlt hat hk
  · exact runs_operator ha hb hfirst hsecond hcode hlow hlt hat hk

/-- The code of an expression leaves its value, and that of a chain the values of its operands. -/
def Computes (g : Site) (e : Expr) : Prop :=
  (g.Runs (fun r => Codes g.frame.prototype g.home e (.register r)) fun s => value s e) ∧
    g.RunsChain e fun r => Codes g.frame.prototype g.home e (.part r)

/-- An expression that is no chain is the only operand of itself. -/
theorem computes_single {q : Part} (hsingle : operands e = [e])
    (hpart : g.Runs q fun s => value s e)
    (hcodes : ∀ r t n n', Codes g.frame.prototype g.home e (.register r) t n n' = q r t n n' ∧
      Codes g.frame.prototype g.home e (.part r) t n n' = q r t n n') : g.Computes e := by
  have hregister : (fun r => Codes g.frame.prototype g.home e (.register r)) = q := by
    funext r t n n'
    exact (hcodes r t n n').1
  have hchain : (fun r => Codes g.frame.prototype g.home e (.part r)) = q := by
    funext r t n n'
    exact (hcodes r t n n').2
  unfold Computes
  rw [hregister, hchain]
  exact ⟨hpart, runsChain_single hsingle hpart⟩

theorem computes_binary {op : BinaryOp} (ha : Simple g.names a) (hb : Simple g.names b)
    (hfirst : g.Computes a) (hsecond : g.Computes b) : g.Computes (.binary op a b line) := by
  have hruns := runs_binary op line ha hb hfirst.1 hsecond.1 hsecond.2
  by_cases hop : op = .concat
  · subst hop
    refine ⟨fun r t n n' s m hcode => hruns ?_, fun r t n n' s m hcode =>
      runsChain_cons line hfirst.1 hsecond.2 ?_⟩
    · simp only [Codes, InOne] at hcode
      exact hcode
    · simp only [Codes] at hcode
      exact hcode
  · refine computes_single ?_ hruns fun r t n n' => ⟨?_, ?_⟩
    · unfold operands
      split
      · next heq => exact absurd (Expr.binary.inj heq).1 hop
      · rfl
    · rw [Codes]
      · rfl
      · exact fun _ _ => hop
    · rw [Codes]
      · rfl
      · exact fun _ _ => hop

/-- The induction over expressions. -/
theorem runs_codes : (e : Expr) → Simple g.names e → g.Computes e
  | .literal v line, _ => by
    refine computes_single rfl (q := fun r _ n n' =>
      g.frame.prototype.Loads n r v.constant ∧ n' = n + 1) ?_ fun r t n n' => ?_
    · simp only [value, literal_eq]
      exact runs_constant
    · exact ⟨by rw [Codes]; rfl, by rw [Codes]; rfl⟩
  | .str x line, _ =>
    computes_single rfl (runs_constant (k := .str x)) fun r t n n' =>
      ⟨by rw [Codes]; rfl, by rw [Codes]; rfl⟩
  | .name n line, h =>
    computes_single rfl (runs_name h) fun r t n n' => ⟨by rw [Codes]; rfl, by rw [Codes]; rfl⟩
  | .paren e line, h =>
    computes_single rfl (runs_codes e h).1 fun r t n n' => ⟨by rw [Codes]; rfl, by rw [Codes]; rfl⟩
  | .unary o e line, h =>
    computes_single rfl (runs_folded (runs_unary h (runs_codes e h).1))
      fun r t n n' => ⟨by rw [Codes]; rfl, by rw [Codes]; rfl⟩
  | .index e k line, h =>
    computes_single rfl (runs_index h.1 h.2 (runs_codes e h.1).1 (runs_codes k h.2).1)
      fun r t n n' => ⟨by rw [Codes]; rfl, by rw [Codes]; rfl⟩
  | .binary op a b line, h => computes_binary h.1 h.2 (runs_codes a h.1) (runs_codes b h.2)

end Site
end Lowering
end LuaMachine
