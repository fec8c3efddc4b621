import LuaMachine.Fault
/-! # Arithmetic

The operators on numbers, used both by the running machine and when constants are folded, so a
folded expression always has the value that running it would give. Integers wrap modulo `2 ^ 64`;
division and remainder round down.

* `Operator`, `Operator.apply`: arithmetic and bitwise operators.
* `lessThan`, `lessEqual`: the order of numbers and of texts.
-/
set_option autoImplicit false

namespace LuaMachine

inductive Operator where
  | add | sub | mul | div | mod | pow | idiv
  | band | bor | bxor | shl | shr
  | unm | bnot
deriving DecidableEq, Repr

def Operator.sign : Operator → String
  | .add => "+"
  | .sub => "-"
  | .mul => "*"
  | .div => "/"
  | .mod => "%"
  | .pow => "^"
  | .idiv => "//"
  | .band => "&"
  | .bor => "|"
  | .bxor => "~"
  | .shl => "<<"
  | .shr => ">>"
  | .unm => "-"
  | .bnot => "~"

namespace Arithmetic

/-! ## Integers -/

/-- The quotient rounded down; dividing by minus one negates, which wraps for the least integer. -/
def floorDiv (a b : Int64) : Except RuntimeError Int64 :=
  if b = 0 then .error .divisionByZero
  else if b = -1 then .ok (-a)
  else
    let q := a / b
    .ok (if a % b ≠ 0 ∧ a ^^^ b < 0 then q - 1 else q)

/-- The remainder that goes with `floorDiv`; it has the sign of the divisor. -/
def floorMod (a b : Int64) : Except RuntimeError Int64 :=
  if b = 0 then .error .moduloByZero
  else if b = -1 then .ok 0
  else
    let m := a % b
    .ok (if m ≠ 0 ∧ m ^^^ b < 0 then m + b else m)

/-- A shift to the left that fills with zeros; a negative count shifts to the right, and a count
of 64 or more leaves nothing. -/
def shiftLeft (x n : Int64) : Int64 :=
  if n ≤ -64 ∨ 64 ≤ n then 0
  else if 0 ≤ n then (x.toUInt64 <<< n.toUInt64).toInt64
  else (x.toUInt64 >>> (-n).toUInt64).toInt64

def shiftRight (x n : Int64) : Int64 :=
  if n ≤ -64 ∨ 64 ≤ n then 0 else shiftLeft x (-n)

/-! ## Floats -/

def floatFloorDiv (a b : Double) : Double := Double.floor (Double.div a b)

/-- The truncated remainder, moved by the divisor when it is positive and the divisor negative, or
when it is negative and not the divisor itself. -/
def floatFloorMod (a b : Double) : Double :=
  let m := Double.remainder a b
  if Double.lt .zero m then
    if Double.lt b .zero then Double.add m b else m
  else if Double.lt m .zero && !Double.eq b m then Double.add m b
  else m

/-! ## Operators -/

/-- The operand that is no number; the right one if the left one is. -/
def arithmeticError (a b : Value) : RuntimeError :=
  .arithmetic (if a.isNumber then b.kind else a.kind)

def bitwiseOperand (v : Value) : Except RuntimeError Int64 :=
  match v with
  | .int i => .ok i
  | .float d =>
    match Double.toInt64? d with
    | some i => .ok i
    | none => .error .noInteger
  | v => .error (.bitwise v.kind)

def bitwise (f : Int64 → Int64 → Int64) (a b : Value) : Except RuntimeError Value := do
  let x ← bitwiseOperand a
  let y ← bitwiseOperand b
  return .int (f x y)

/-- A shift checks its count before the operand that is shifted. -/
def shift (f : Int64 → Int64 → Int64) (a b : Value) : Except RuntimeError Value := do
  let n ← bitwiseOperand b
  let x ← bitwiseOperand a
  return .int (f x n)

def onFloats (f : Double → Double → Double) (a b : Value) : Except RuntimeError Value :=
  match a.toFloat?, b.toFloat? with
  | some x, some y => .ok (.float (f x y))
  | _, _ => .error (arithmeticError a b)

/-- Two integers give an integer; an integer and a float, or two floats, give a float. -/
def onNumbers (f : Int64 → Int64 → Except RuntimeError Int64) (g : Double → Double → Double)
    (a b : Value) : Except RuntimeError Value :=
  match a, b with
  | .int x, .int y => (f x y).map .int
  | a, b => onFloats g a b

end Arithmetic

open Arithmetic in
/-- The value of an operator on two operands; a unary operator takes no notice of the second. -/
def Operator.apply (op : Operator) (a b : Value) : Except RuntimeError Value :=
  match op with
  | .add => onNumbers (fun x y => .ok (x + y)) Double.add a b
  | .sub => onNumbers (fun x y => .ok (x - y)) Double.sub a b
  | .mul => onNumbers (fun x y => .ok (x * y)) Double.mul a b
  | .div => onFloats Double.div a b
  | .mod => onNumbers floorMod floatFloorMod a b
  | .pow => onFloats Double.power a b
  | .idiv => onNumbers floorDiv floatFloorDiv a b
  | .band => bitwise (· &&& ·) a b
  | .bor => bitwise (· ||| ·) a b
  | .bxor => bitwise (· ^^^ ·) a b
  | .shl => shift shiftLeft a b
  | .shr => shift shiftRight a b
  | .unm =>
    match a with
    | .int i => .ok (.int (-i))
    | .float d => .ok (.float (Double.neg d))
    | a => .error (.arithmetic a.kind)
  | .bnot => (bitwiseOperand a).map fun x => .int (~~~x)

/-! ## Order -/

namespace Arithmetic

/-- The double just above all integers. -/
def integerBound : Double := ⟨0x43E0000000000000⟩

/-! An integer and a double are compared as integers, once the double is known to round to one. -/

def intLessFloat (i : Int64) (d : Double) : Bool :=
  if Double.isNaN d then false
  else if Double.le integerBound d then true
  else if Double.lt (Double.neg integerBound) d then
    (Double.ceilInt? d).any fun c => i < Int64.ofInt c
  else false

def intLessEqualFloat (i : Int64) (d : Double) : Bool :=
  if Double.isNaN d then false
  else if Double.le integerBound d then true
  else if Double.le (Double.neg integerBound) d then
    (Double.floorInt? d).any fun c => i ≤ Int64.ofInt c
  else false

def floatLessInt (d : Double) (i : Int64) : Bool :=
  if Double.isNaN d then false
  else if Double.le integerBound d then false
  else if Double.le (Double.neg integerBound) d then
    (Double.floorInt? d).any fun c => Int64.ofInt c < i
  else true

def floatLessEqualInt (d : Double) (i : Int64) : Bool :=
  if Double.isNaN d then false
  else if Double.le integerBound d then false
  else if Double.lt (Double.neg integerBound) d then
    (Double.ceilInt? d).any fun c => Int64.ofInt c ≤ i
  else true

end Arithmetic

open Arithmetic in
/-- Numbers are ordered by value and texts byte by byte; nothing else is ordered. -/
def lessThan (a b : Value) : Except RuntimeError Bool :=
  match a, b with
  | .int x, .int y => .ok (x < y)
  | .float x, .float y => .ok (Double.lt x y)
  | .int x, .float y => .ok (intLessFloat x y)
  | .float x, .int y => .ok (floatLessInt x y)
  | .str x, .str y => .ok (x < y)
  | a, b => .error (.comparison a.kind b.kind)

open Arithmetic in
def lessEqual (a b : Value) : Except RuntimeError Bool :=
  match a, b with
  | .int x, .int y => .ok (x ≤ y)
  | .float x, .float y => .ok (Double.le x y)
  | .int x, .float y => .ok (intLessEqualFloat x y)
  | .float x, .int y => .ok (floatLessEqualInt x y)
  | .str x, .str y => .ok (!decide (y < x))
  | a, b => .error (.comparison a.kind b.kind)

end LuaMachine
