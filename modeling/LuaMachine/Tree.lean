import LuaMachine.Number.Numeral
/-! # Programs as trees

The expressions and statements of a program, each with the line it is reported at. A local
variable is declared by a binder, and each binder of a program has a number of its own.

* `Expr`, `Stmt`, `Function`: the tree; `Block` is a list of statements.
-/
set_option autoImplicit false

namespace LuaMachine

inductive UnaryOp where
  | negate | not | length | complement
deriving DecidableEq, Repr

inductive BinaryOp where
  | or | and
  | eq | ne | gt | ge | lt | le
  | bor | bxor | band | shl | shr
  | concat
  | add | sub | mul | div | idiv | mod
  | pow
deriving DecidableEq, Repr

inductive Literal where
  | nil
  | bool (b : Bool)
  | number (n : Number)

/-- The declaration of a local variable. -/
structure Binder where
  name : String
  number : Nat
  constant : Bool
deriving DecidableEq, Repr

mutual

inductive Expr where
  | literal (value : Literal) (line : Nat)
  | str (contents : String) (line : Nat)
  | unary (op : UnaryOp) (operand : Expr) (line : Nat)
  | binary (op : BinaryOp) (left right : Expr) (line : Nat)
  | name (name : String) (line : Nat)
  | vararg (line : Nat)
  | paren (inner : Expr) (line : Nat)
  | call (callee : Expr) (args : List Expr) (line : Nat)
  | method (object : Expr) (name : String) (args : List Expr) (line : Nat)
  | table (fields : List Field) (line : Nat)
  | index (object key : Expr) (line : Nat)
  | function (f : Function)

/-- An entry of a table constructor, with a key or with the next position. -/
inductive Field where
  | item (value : Expr)
  | pair (key value : Expr)

inductive Function where
  | mk (name : String) (params : List Binder) (variadic : Bool) (body : List Stmt)
      (line endLine : Nat)

/-- A further condition of an `if` with the statements it guards. -/
inductive Branch where
  | mk (condition : Expr) (body : List Stmt)

inductive Stmt where
  | expr (e : Expr) (line : Nat)
  | assign (targets values : List Expr) (line : Nat)
  | locals (binders : List Binder) (values : List Expr) (line : Nat)
  | localFunction (binder : Binder) (f : Function) (line : Nat)
  | function (target : Expr) (f : Function) (line : Nat)
  | block (body : List Stmt) (line : Nat)
  | cond (condition : Expr) (body : List Stmt) (branches : List Branch)
      (otherwise : Option (List Stmt)) (line : Nat)
  | whileLoop (condition : Expr) (body : List Stmt) (line : Nat)
  | repeatLoop (body : List Stmt) (condition : Expr) (line : Nat)
  | numericFor (binder : Binder) (start stop : Expr) (step : Option Expr) (body : List Stmt)
      (line : Nat)
  | genericFor (binders : List Binder) (iterators : List Expr) (body : List Stmt) (line : Nat)
  | ret (values : List Expr) (line : Nat)
  | exit (line : Nat)
  | goto (label : String) (line : Nat)
  | label (name : String) (line : Nat)

end

instance : Inhabited Expr := ⟨.vararg 0⟩

instance : Inhabited Stmt := ⟨.exit 0⟩

abbrev Block := List Stmt

namespace Expr

def line : Expr → Nat
  | .literal _ n => n
  | .str _ n => n
  | .unary _ _ n => n
  | .binary _ _ _ n => n
  | .name _ n => n
  | .vararg n => n
  | .paren _ n => n
  | .call _ _ n => n
  | .method _ _ _ n => n
  | .table _ n => n
  | .index _ _ n => n
  | .function (.mk _ _ _ _ n _) => n

/-- Only names and index expressions can be assigned to. -/
def isTarget : Expr → Bool
  | .name _ _ => true
  | .index _ _ _ => true
  | _ => false

def isCall : Expr → Bool
  | .call _ _ _ => true
  | .method _ _ _ _ => true
  | _ => false

/-- Calls and `...` can give any number of values. -/
def isMultiple : Expr → Bool
  | .call _ _ _ => true
  | .method _ _ _ _ => true
  | .vararg _ => true
  | _ => false

end Expr

namespace Stmt

def line : Stmt → Nat
  | .expr _ n => n
  | .assign _ _ n => n
  | .locals _ _ n => n
  | .localFunction _ _ n => n
  | .function _ _ n => n
  | .block _ n => n
  | .cond _ _ _ _ n => n
  | .whileLoop _ _ n => n
  | .repeatLoop _ _ n => n
  | .numericFor _ _ _ _ _ n => n
  | .genericFor _ _ _ n => n
  | .ret _ n => n
  | .exit n => n
  | .goto _ n => n
  | .label _ n => n

def isLabel : Stmt → Bool
  | .label _ _ => true
  | _ => false

end Stmt
end LuaMachine
