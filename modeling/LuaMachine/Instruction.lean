/-! # Instructions

The instruction set of the machine. An instruction is one word of 32 bits: the operation in the
lowest byte, then the fields A, B and C of a byte each. B and C together form Bx, and A, B and C
form Ax; sBx and sJ are Bx and Ax less half of their range. R[x] stands for register x of the
running function, K[x] for its constant x and U[x] for its upvalue x.
-/
set_option autoImplicit false

namespace LuaMachine

inductive Opcode where
  | move -- R[A] = R[B]
  | loadConstant -- R[A] = K[Bx]
  | loadBool -- R[A] = (B is not 0)
  | loadNil -- R[A .. A+B-1] = nil
  | getUpvalue -- R[A] = U[B]
  | setUpvalue -- U[B] = R[A]
  | getGlobal -- R[A] = U[B][K[C]]
  | setGlobal -- U[A][K[B]] = R[C]
  | getTable -- R[A] = R[B][R[C]]
  | setTable -- R[A][R[B]] = R[C]
  | getField -- R[A] = R[B][K[C]]
  | setField -- R[A][K[B]] = R[C]
  | newTable -- R[A] = a new table
  | setList -- R[A][n+i] = R[A+i] for i from 1 to B, or up to the open end if B is 0; n follows in an extra word
  | self -- R[A+1] = R[B] and R[A] = R[B][R[C]]
  | add -- R[A] = R[B] op R[C], and so for the next eleven
  | sub
  | mul
  | div
  | idiv
  | mod
  | pow
  | band
  | bor
  | bxor
  | shl
  | shr
  | unm -- R[A] = op R[B], and so for the next three
  | not
  | bnot
  | length
  | concat -- R[A] = R[B] .. (up to) .. R[B+C-1]
  | equal -- R[A] = (R[B] == R[C]), and so for the next two
  | less
  | lessEqual
  | jump -- go on sJ words further
  | test -- skip the next word if the truth of R[A] differs from B
  | call -- R[A .. A+C-2] = R[A](R[A+1 .. A+B-1]); B = 0: arguments up to the open end, C = 0: keep all results
  | ret -- return R[A .. A+B-2]; B = 0: up to the open end
  | close -- close the upvalues of R[A] and above
  | closure -- R[A] = a closure of child Bx
  | vararg -- R[A .. A+C-2] = the extra arguments; C = 0: all of them
  | forPrepare -- prepare a numeric loop on R[A .. A+3], or skip it
  | forLoop -- step a numeric loop and go back if it goes on
  | iterCall -- R[A+3 .. A+2+C] = R[A](R[A+1], R[A+2])
  | iterLoop -- if R[A+3] is not nil: R[A+2] = R[A+3] and go back
  | extra -- an argument of the word before
deriving DecidableEq, Repr

namespace Opcode

def name : Opcode → String
  | .move => "MOVE"
  | .loadConstant => "LOADK"
  | .loadBool => "LOADBOOL"
  | .loadNil => "LOADNIL"
  | .getUpvalue => "GETUPVAL"
  | .setUpvalue => "SETUPVAL"
  | .getGlobal => "GETTABUP"
  | .setGlobal => "SETTABUP"
  | .getTable => "GETTABLE"
  | .setTable => "SETTABLE"
  | .getField => "GETFIELD"
  | .setField => "SETFIELD"
  | .newTable => "NEWTABLE"
  | .setList => "SETLIST"
  | .self => "SELF"
  | .add => "ADD"
  | .sub => "SUB"
  | .mul => "MUL"
  | .div => "DIV"
  | .idiv => "IDIV"
  | .mod => "MOD"
  | .pow => "POW"
  | .band => "BAND"
  | .bor => "BOR"
  | .bxor => "BXOR"
  | .shl => "SHL"
  | .shr => "SHR"
  | .unm => "UNM"
  | .not => "NOT"
  | .bnot => "BNOT"
  | .length => "LEN"
  | .concat => "CONCAT"
  | .equal => "EQ"
  | .less => "LT"
  | .lessEqual => "LE"
  | .jump => "JMP"
  | .test => "TEST"
  | .call => "CALL"
  | .ret => "RETURN"
  | .close => "CLOSE"
  | .closure => "CLOSURE"
  | .vararg => "VARARG"
  | .forPrepare => "FORPREP"
  | .forLoop => "FORLOOP"
  | .iterCall => "TFORCALL"
  | .iterLoop => "TFORLOOP"
  | .extra => "EXTRAARG"

/-- The operations in the order of their numbers. -/
def all : Array Opcode := #[
  .move, .loadConstant, .loadBool, .loadNil, .getUpvalue, .setUpvalue, .getGlobal,
  .setGlobal, .getTable, .setTable, .getField, .setField, .newTable, .setList,
  .self, .add, .sub, .mul, .div, .idiv, .mod,
  .pow, .band, .bor, .bxor, .shl, .shr, .unm,
  .not, .bnot, .length, .concat, .equal, .less, .lessEqual,
  .jump, .test, .call, .ret, .close, .closure, .vararg,
  .forPrepare, .forLoop, .iterCall, .iterLoop, .extra]

def number (op : Opcode) : Nat := op.ctorIdx

def ofNumber? (n : Nat) : Option Opcode := all[n]?

end Opcode

structure Instruction where
  word : UInt32
deriving DecidableEq, Repr, Inhabited

namespace Instruction

/-! ## Limits of the fields -/

def maxBx : Nat := 65535

def maxSignedBx : Nat := maxBx / 2

def maxAx : Nat := 0xFFFFFF

def maxSignedAx : Nat := maxAx / 2

/-! ## Reading the fields -/

def opcode? (i : Instruction) : Option Opcode := Opcode.ofNumber? (i.word &&& 0xFF).toNat

def a (i : Instruction) : Nat := ((i.word >>> 8) &&& 0xFF).toNat

def b (i : Instruction) : Nat := ((i.word >>> 16) &&& 0xFF).toNat

def c (i : Instruction) : Nat := (i.word >>> 24).toNat

def bx (i : Instruction) : Nat := (i.word >>> 16).toNat

def ax (i : Instruction) : Nat := (i.word >>> 8).toNat

def signedBx (i : Instruction) : Int := (i.bx : Int) - maxSignedBx

def signedAx (i : Instruction) : Int := (i.ax : Int) - maxSignedAx

/-! ## Writing the fields

A field takes what fits of its argument. -/

def field (bits shift n : Nat) : UInt32 := ((n % (1 <<< bits)) <<< shift).toUInt32

def abc (op : Opcode) (a b c : Nat) : Instruction :=
  ⟨field 8 0 op.number ||| field 8 8 a ||| field 8 16 b ||| field 8 24 c⟩

def abx (op : Opcode) (a bx : Nat) : Instruction :=
  ⟨field 8 0 op.number ||| field 8 8 a ||| field 16 16 bx⟩

/-- A whole number less than half of a field's range away from zero, as the field holds it. -/
def biased (half range : Nat) (n : Int) : Nat := ((n + half) % (range : Int)).toNat

def asbx (op : Opcode) (a : Nat) (n : Int) : Instruction :=
  abx op a (biased maxSignedBx (maxBx + 1) n)

def ofAx (op : Opcode) (ax : Nat) : Instruction :=
  ⟨field 8 0 op.number ||| field 24 8 ax⟩

def ofSignedAx (op : Opcode) (n : Int) : Instruction :=
  ofAx op (biased maxSignedAx (maxAx + 1) n)

/-- The lowest bits of a word, all others being zero. -/
def lowest (bits : Nat) (i : Instruction) : UInt32 := (i.word.toNat % (1 <<< bits)).toUInt32

def withSignedBx (i : Instruction) (n : Int) : Instruction :=
  ⟨lowest 16 i ||| field 16 16 (biased maxSignedBx (maxBx + 1) n)⟩

def withSignedAx (i : Instruction) (n : Int) : Instruction :=
  ⟨lowest 8 i ||| field 24 8 (biased maxSignedAx (maxAx + 1) n)⟩

def withA (i : Instruction) (n : Nat) : Instruction :=
  ⟨lowest 8 i ||| field 8 8 n ||| field 8 16 i.b ||| field 8 24 i.c⟩

end Instruction
end LuaMachine
