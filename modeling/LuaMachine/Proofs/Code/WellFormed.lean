import LuaMachine.Scope
/-! # Well-formed code

What a compiled function has to satisfy so that no instruction reaches beyond the registers, the
constants, the upvalues, the children or the code of its function.

* `Opcode.runs`, `constant?`, `upvalue?`, `child?`: what an instruction names by its fields.
* `Instruction.targets`: where it can go besides the next word.
* `Instruction.ValidAt`, `Prototype.CodeValid`: the conditions on one word and on the whole code.
* `Prototype.WellFormed`: valid code, and well-formed children whose upvalues exist.
* `Prototype.Runnable`: well-formed code whose functions have registers for their parameters.
-/
set_option autoImplicit false

namespace LuaMachine

namespace Opcode

/-! ## What an instruction names -/

/-- The runs of registers that an instruction with these fields reads or writes, each with its first
register and its length. What extends to the open end, which is only known in a run, is left out. -/
def runs (op : Opcode) (a b c : Nat) : List (Nat × Nat) :=
  match op with
  | .move | .unm | .not | .bnot | .length | .getField => [(a, 1), (b, 1)]
  | .loadConstant | .loadBool | .getUpvalue | .setUpvalue | .getGlobal | .newTable => [(a, 1)]
  | .loadNil => [(a, b)]
  | .setGlobal => [(c, 1)]
  | .setField => [(a, 1), (c, 1)]
  | .setList => [(a, b + 1)]
  | .self => [(a, 2), (b, 1), (c, 1)]
  | .concat => [(a, 1), (b, c)]
  | .jump | .extra => []
  | .test | .close | .closure => [(a, 1)]
  | .call => [(a, max 1 b), (a, c - 1)]
  | .ret => [(a, b - 1)]
  | .vararg => [(a, c - 1)]
  | .forPrepare | .forLoop => [(a, 4)]
  | .iterCall => [(a, 6), (a + 3, c)]
  | .iterLoop => [(a + 2, 2)]
  | _ => [(a, 1), (b, 1), (c, 1)]

def constant? (op : Opcode) (b c bx : Nat) : Option Nat :=
  match op with
  | .loadConstant => some bx
  | .getGlobal | .getField => some c
  | .setGlobal | .setField => some b
  | _ => none

def upvalue? (op : Opcode) (a b : Nat) : Option Nat :=
  match op with
  | .getUpvalue | .setUpvalue | .getGlobal => some b
  | .setGlobal => some a
  | _ => none

def child? (op : Opcode) (bx : Nat) : Option Nat :=
  match op with
  | .closure => some bx
  | _ => none

end Opcode

/-- Where the instruction at a position can go besides the next word. The preparation of a loop goes
to the end of the loop or past it. -/
def Instruction.targets (i : Instruction) (position : Nat) : Opcode → List Int
  | .jump => [position + 1 + i.signedAx]
  | .test => [position + 2]
  | .forPrepare => [position + 1 + i.signedBx, position + 1 + i.signedBx + 1]
  | .forLoop => [position + 1 + i.signedBx]
  | .iterLoop => [position + 1 + i.signedBx]
  | _ => []

/-! ## Conditions on the code -/

/-- The operation at a position of the code. -/
def Prototype.opcodeAt? (p : Prototype) (position : Nat) : Option Opcode :=
  p.chunk.code[position]?.bind Instruction.opcode?

/-- Everything that the instruction names exists in the function. -/
structure Instruction.OperandsFit (p : Prototype) (i : Instruction) (op : Opcode) : Prop where
  registers : ∀ run ∈ op.runs i.a i.b i.c, ∀ k < run.2, run.1 + k < p.registers
  constant : ∀ k, op.constant? i.b i.c i.bx = some k → k < p.chunk.constants.size
  upvalue : ∀ u, op.upvalue? i.a i.b = some u → u < p.upvalues.size
  child : ∀ n, op.child? i.bx = some n → n < p.children.size

/-- The instruction at a position goes to instructions of its own function only, and it has the
words around it that its operation needs. -/
structure Instruction.ValidAt (p : Prototype) (position : Nat) (i : Instruction) (op : Opcode) :
    Prop where
  operands : i.OperandsFit p op
  target : ∀ t ∈ i.targets position op,
    ∃ n : Nat, t = n ∧ n < p.chunk.size ∧ p.opcodeAt? n ≠ some .extra
  list : op = .setList →
    p.opcodeAt? (position + 1) = some .extra ∧ p.opcodeAt? (position + 2) ≠ some .extra
  extra : op = .extra → ∃ n, position = n + 1 ∧ p.opcodeAt? n = some .setList
  test : op = .test → p.opcodeAt? (position + 1) = some .jump

structure Prototype.CodeValid (p : Prototype) : Prop where
  registers : p.registers ≤ FunctionScope.maxRegisters
  words : ∀ position (i : Instruction), p.chunk.code[position]? = some i →
    ∃ op, i.opcode? = some op ∧ i.ValidAt p position op
  last : p.opcodeAt? (p.chunk.size - 1) = some .ret

/-- Each upvalue of the child comes from a register or from an upvalue of the function. -/
def Prototype.Supplies (p child : Prototype) : Prop :=
  ∀ u ∈ child.upvalues, u.index < if u.fromRegister then p.registers else p.upvalues.size

/-- The code of the function and of all functions inside of it is valid. -/
inductive Prototype.WellFormed : Prototype → Prop
  | intro {p : Prototype} (code : p.CodeValid) (supplies : ∀ q ∈ p.children, p.Supplies q)
      (nested : ∀ q ∈ p.children, q.WellFormed) : p.WellFormed

/-- In the function and in all functions inside of it, the parameters have registers. -/
inductive Prototype.Roomy : Prototype → Prop
  | intro {p : Prototype} (params : p.params ≤ p.registers) (nested : ∀ q ∈ p.children, q.Roomy) :
    p.Roomy

/-- The code can be run. -/
structure Prototype.Runnable (p : Prototype) : Prop where
  wellFormed : p.WellFormed
  roomy : p.Roomy

theorem Prototype.Runnable.nested {p : Prototype} (h : p.Runnable) :
    ∀ q ∈ p.children, q.Runnable := by
  obtain ⟨⟨-, -, hwellFormed⟩, ⟨-, hroomy⟩⟩ := h
  exact fun q hq => ⟨hwellFormed q hq, hroomy q hq⟩

end LuaMachine
