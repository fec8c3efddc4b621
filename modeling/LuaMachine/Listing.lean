import LuaMachine.Prototype
/-! # Listings

How compiled functions are shown: a line for each instruction with its place, its source line (or
a bar if that is the line of the instruction before) and its operands, then the constants.

* `Chunk.listInstruction`, `Chunk.listing`, `Prototype.listing`.
-/
set_option autoImplicit false

namespace LuaMachine
namespace Listing

def padLeft (fill : Char) (width : Nat) (s : String) : String :=
  String.ofList (List.replicate (width - s.length) fill) ++ s

def padRight (width : Nat) (s : String) : String :=
  s ++ String.ofList (List.replicate (width - s.length) ' ')

def nat (n : Nat) : String := String.ofList (Numeral.writeNat n)

def int (n : Int) : String := String.ofList (Numeral.writeInt n)

def words (fields : List Nat) : String := " ".intercalate (fields.map nat)

/-- A jump and the place where it goes to. -/
def target (position : Nat) (offset : Int) : String :=
  int offset ++ "\t; to " ++ int (position + 1 + offset)

end Listing

open Listing

namespace Chunk

/-- The constant an operand names, as a remark. -/
def remark (c : Chunk) (place : Nat) : String :=
  match c.constants[place]? with
  | some k => "\t; " ++ k.text
  | none => ""

/-- The operands that an instruction uses. -/
def operands (c : Chunk) (position : Nat) (i : Instruction) : String :=
  match i.opcode? with
  | some .loadConstant => words [i.a, i.bx] ++ c.remark i.bx
  | some .closure => words [i.a, i.bx]
  | some .getGlobal | some .getField => words [i.a, i.b, i.c] ++ c.remark i.c
  | some .setGlobal | some .setField => words [i.a, i.b, i.c] ++ c.remark i.b
  | some .jump => target position i.signedAx
  | some .forPrepare | some .forLoop | some .iterLoop =>
    words [i.a] ++ " " ++ target position i.signedBx
  | some .newTable | some .close => words [i.a]
  | some .extra => words [i.ax]
  | some .move | some .loadBool | some .loadNil | some .getUpvalue | some .setUpvalue
  | some .setList | some .unm | some .not | some .bnot | some .length | some .test
  | some .ret => words [i.a, i.b]
  | some .vararg | some .iterCall => words [i.a, i.c]
  | _ => words [i.a, i.b, i.c]

def opcodeName (i : Instruction) : String :=
  match i.opcode? with
  | some op => op.name
  | none => "UNKNOWN"

/-- The source line of an instruction, or a bar where it does not change. -/
def lineColumn (c : Chunk) (position : Nat) : String :=
  let line := c.lines.getD position 0
  if 0 < position && c.lines[position - 1]? == some line then "   | "
  else padLeft ' ' 4 (int line) ++ " "

def listInstruction (c : Chunk) (position : Nat) : String :=
  match c.code[position]? with
  | none => ""
  | some i =>
    padLeft '0' 4 (nat position) ++ " " ++ c.lineColumn position
      ++ padRight 10 (opcodeName i) ++ c.operands position i ++ "\n"

def listConstants (c : Chunk) : String :=
  if c.constants.isEmpty then ""
  else
    "constants (" ++ nat c.constants.size ++ "):\n"
      ++ String.join ((List.range c.constants.size).map fun place =>
        "  " ++ nat place ++ "\t" ++ (c.constants.getD place .nil).text ++ "\n")

def listing (c : Chunk) (name : String) : String :=
  "== " ++ name ++ " ==\n"
    ++ String.join ((List.range c.size).map c.listInstruction)
    ++ c.listConstants

end Chunk

namespace Prototype

def heading (p : Prototype) : String :=
  "function <" ++ p.name ++ ":" ++ nat p.line ++ "> (" ++ nat p.params
    ++ (if p.variadic then "+ params, " else " params, ") ++ nat p.registers ++ " slots, "
    ++ nat p.upvalues.size ++ " upvalues)\n"

/-- A function and all functions inside of it. -/
def listing (p : Prototype) : String :=
  p.heading ++ p.chunk.listing p.name
    ++ String.join (p.children.toList.attach.map fun child => "\n" ++ child.1.listing)
termination_by p
decreasing_by
  have h := List.sizeOf_lt_of_mem child.2
  cases p with
  | mk _ _ _ _ _ _ _ _ _ children =>
    cases children with
    | mk l =>
      simp only [Prototype.mk.sizeOf_spec, Array.mk.sizeOf_spec] at h ⊢
      omega

end Prototype
end LuaMachine
