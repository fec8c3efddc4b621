import LuaMachine.Arithmetic
import LuaMachine.Prototype
import LuaMachine.Tree
/-! # Folding of constants

An expression of literals whose evaluation raises no error has its value already when the program
is compiled, and that is the value that evaluating it would give.

* `Expr.fold`: the constant that an expression is, if it is one.
-/
set_option autoImplicit false

namespace LuaMachine

def Literal.constant : Literal → Constant
  | .nil => .nil
  | .bool b => .bool b
  | .number (.int i) => .int i
  | .number (.float d) => .float d

namespace Folding

def ofValue? : Value → Option Constant
  | .int i => some (.int i)
  | .float d => some (.float d)
  | _ => none

def isNumber : Constant → Bool
  | .int _ => true
  | .float _ => true
  | _ => false

/-- An operator on numbers; what would raise an error is left to the machine. -/
def arithmetic (op : Operator) (a b : Constant) : Option Constant :=
  if isNumber a && isNumber b then
    match op.apply a.value b.value with
    | .ok v => ofValue? v
    | .error _ => none
  else none

/-- The text that a constant contributes to a concatenation. -/
def piece? : Constant → Option String
  | .str s => some s
  | .int i => some (Value.int i).toText
  | .float d => some (Value.float d).toText
  | _ => none

def unary (op : UnaryOp) (a : Constant) : Option Constant :=
  match op with
  | .not => some (.bool a.isFalsey)
  | .length =>
    match a with
    | .str s => some (.int (Int64.ofNat s.length))
    | _ => none
  | .negate => arithmetic .unm a a
  | .complement => arithmetic .bnot a a

/-- The operator on numbers that a binary operator is; logic, comparison and concatenation are
none. -/
def operator? : BinaryOp → Option Operator
  | .add => some .add
  | .sub => some .sub
  | .mul => some .mul
  | .div => some .div
  | .idiv => some .idiv
  | .mod => some .mod
  | .pow => some .pow
  | .band => some .band
  | .bor => some .bor
  | .bxor => some .bxor
  | .shl => some .shl
  | .shr => some .shr
  | _ => none

def binary (op : BinaryOp) (a b : Constant) : Option Constant :=
  match op with
  | .and => some (if a.isFalsey then a else b)
  | .or => some (if a.isFalsey then b else a)
  | .concat =>
    match piece? a, piece? b with
    | some s, some t => some (.str (s ++ t))
    | _, _ => none
  | op => (operator? op).bind fun o => arithmetic o a b

end Folding

def Expr.fold : Expr → Option Constant
  | .literal v _ => some v.constant
  | .str s _ => some (.str s)
  | .paren e _ => e.fold
  | .unary op e _ =>
    match e.fold with
    | some a => Folding.unary op a
    | none => none
  | .binary op l r _ =>
    match l.fold, r.fold with
    | some a, some b => Folding.binary op a b
    | _, _ => none
  | _ => none

end LuaMachine
