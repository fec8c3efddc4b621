import LuaMachine.Fault
import LuaMachine.Instruction
import Std.Data.HashMap
/-! # Compiled functions

A prototype is what a function is compiled to: its instructions with their lines, its constants,
how its closures come by their upvalues, and the prototypes of the functions inside of it.

* `Constant`, `Chunk.addConstant`: the pool of constants, in which equal ones share a place.
* `Chunk.write`, `Chunk.patch`: the instructions.
* `Prototype`: the compiled function.
-/
set_option autoImplicit false

namespace LuaMachine

/-! ## Constants -/

/-- Floats are told apart by their bits, so each zero and each NaN has a place of its own. -/
inductive Constant where
  | nil
  | bool (b : Bool)
  | int (i : Int64)
  | float (d : Double)
  | str (s : String)
deriving DecidableEq

namespace Constant

def value : Constant → Value
  | .nil => .nil
  | .bool b => .bool b
  | .int i => .int i
  | .float d => .float d
  | .str s => .str s

def isFalsey (c : Constant) : Bool := c.value.isFalsey

/-- How a constant is shown in a listing. -/
def text : Constant → String
  | .str s => "\"" ++ s ++ "\""
  | c => c.value.toText

def hash : Constant → UInt64
  | .nil => 1
  | .bool b => mixHash 2 (Hashable.hash b)
  | .int i => mixHash 3 i.toUInt64
  | .float d => mixHash 4 d.bits
  | .str s => mixHash 5 (Hashable.hash s)

instance : Hashable Constant := ⟨hash⟩

end Constant

/-! ## Chunks -/

/-- The instructions of a function with the line of each, and its constants with an index. -/
structure Chunk where
  code : Array Instruction := #[]
  lines : Array Int := #[]
  constants : Array Constant := #[]
  places : Std.HashMap Constant Nat := {}

instance : Inhabited Chunk := ⟨{}⟩

namespace Chunk

def maxConstants : Nat := 65535

def size (c : Chunk) : Nat := c.code.size

def write (c : Chunk) (i : Instruction) (line : Int) : Chunk :=
  { c with code := c.code.push i, lines := c.lines.push line }

def patch (c : Chunk) (at' : Nat) (f : Instruction → Instruction) : Chunk :=
  { c with code := c.code.modify at' f }

/-- The line of an instruction, if it exists. -/
def line? (c : Chunk) (position : Nat) : Option Int := c.lines[position]?

/-- The place that a constant has, or will have when it is added. -/
def placeOf (c : Chunk) (k : Constant) : Except CompileError Nat :=
  match c.places[k]? with
  | some place => .ok place
  | none =>
    let place := c.constants.size
    if maxConstants ≤ place then .error ⟨"too many constants", none⟩ else .ok place

/-- The chunk with a constant, which is added unless it is there already. -/
def withConstant (c : Chunk) (k : Constant) : Chunk :=
  if c.places.contains k then c
  else
    let place := c.constants.size
    { c with constants := c.constants.push k, places := c.places.insert k place }

/-- Adds a constant and gives its place. -/
def addConstant (c : Chunk) (k : Constant) : Except CompileError (Chunk × Nat) :=
  (c.placeOf k).map fun place => (c.withConstant k, place)

end Chunk

/-! ## Prototypes -/

/-- Where a new closure finds one of its upvalues: in a register of the function that creates it,
or among that function's own upvalues. -/
structure UpvalueSource where
  name : String
  fromRegister : Bool
  index : Nat
deriving DecidableEq, Repr

/-- The instructions during which a local variable lives in its register. -/
structure LocalRange where
  name : String
  start : Nat
  stop : Nat
  register : Nat
deriving DecidableEq, Repr

structure Prototype where
  name : String
  source : String
  line : Nat
  params : Nat
  variadic : Bool
  registers : Nat
  chunk : Chunk
  upvalues : Array UpvalueSource
  locals : Array LocalRange
  children : Array Prototype

instance : Inhabited Prototype := ⟨⟨"", "", 0, 0, false, 2, {}, #[], #[], #[]⟩⟩

end LuaMachine
