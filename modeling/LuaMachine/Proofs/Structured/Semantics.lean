import LuaMachine.Arithmetic
import LuaMachine.NumericLoop
import LuaMachine.Proofs.Scoping.Sites
import LuaMachine.Prototype
import LuaMachine.Table
import LuaMachine.Tree
/-! # Structured programs and their meaning

A structured program declares and assigns variables, has blocks, conditions and loops, and returns
values; its expressions call nothing and make no functions and no tables. What such a program does
is told by its tree alone: variables are known by their names, innermost first, and tables by their
places. Right-hand sides have their values before anything is stored, targets are stored from right
to left, and a block's variables end with it.

* `Structured.isExpr`, `Structured.isStmt`, `Structured.isBlock`: the programs.
* `Structured.value`: the value of an expression; there is none if it raises an error.
* `Structured.exec`: how a statement ends, if no loop takes more rounds than it may.
* `Structured.run`: how a program ends.
-/
set_option autoImplicit false

namespace LuaMachine
namespace Structured

/-! ## Structured programs -/

def isExpr : Expr → Bool
  | .literal _ _ => true
  | .str _ _ => true
  | .unary _ e _ => isExpr e
  | .binary _ a b _ => isExpr a && isExpr b
  | .name n _ => n != loopState
  | .paren e _ => isExpr e
  | .index e k _ => isExpr e && isExpr k
  | _ => false

mutual

def isStmt : Stmt → Bool
  | .assign left right _ => left.all isExpr && right.all isExpr
  | .locals bs values _ => bs.all (fun b => b.name != loopState) && values.all isExpr
  | .block body _ => isBlock body
  | .cond c body more none _ => isExpr c && isBlock body && areBranches more
  | .cond c body more (some other) _ => isExpr c && isBlock body && areBranches more && isBlock other
  | .whileLoop c body _ => isExpr c && isBlock body
  | .repeatLoop body c _ => isBlock body && isExpr c
  | .numericFor b start stop none body _ =>
    b.name != loopState && isExpr start && isExpr stop && isBlock body
  | .numericFor b start stop (some step) body _ =>
    b.name != loopState && isExpr start && isExpr stop && isExpr step && isBlock body
  | .ret values _ => values.all isExpr
  | .exit _ => true
  | _ => false

def isBlock : List Stmt → Bool
  | [] => true
  | t :: rest => isStmt t && isBlock rest

def areBranches : List Branch → Bool
  | [] => true
  | .mk c body :: rest => isExpr c && isBlock body && areBranches rest

end

/-! ## Variables and tables -/

/-- Variables with the innermost first. The last one is `_ENV`, whose fields are the globals. -/
abbrev Variables := List (String × Value)

abbrev Tables := Ref → Table

structure Store where
  bindings : Variables
  tables : Tables

/-- Assigns to the innermost variable of a name. -/
def Variables.set : Variables → String → Value → Variables
  | [], _, _ => []
  | (n, w) :: rest, name, v =>
    if n = name then (n, v) :: rest else (n, w) :: Variables.set rest name v

/-- The value of a key in a table; nothing else can be indexed. -/
def element (tables : Tables) (object key : Value) : Option Value :=
  match object with
  | .table r => some ((tables r).get key)
  | _ => none

def setElement (tables : Tables) (object key v : Value) : Option Tables :=
  match object with
  | .table r =>
    match (tables r).set key v with
    | .ok t => some fun r' => if r' = r then t else tables r'
    | .error _ => none
  | _ => none

namespace Store

/-- The value of a variable, or of a global if there is no variable of the name. -/
def read (s : Store) (name : String) : Option Value :=
  match s.bindings.lookup name with
  | some v => some v
  | none => do element s.tables (← s.bindings.lookup "_ENV") (.str name)

def write (s : Store) (name : String) (v : Value) : Option Store :=
  match s.bindings.lookup name with
  | some _ => some { s with bindings := s.bindings.set name v }
  | none => do
    return { s with tables := ← setElement s.tables (← s.bindings.lookup "_ENV") (.str name) v }

/-- Variables that are declared one after the other. -/
def declare (s : Store) (names : List String) (vs : List Value) : Store :=
  { s with bindings := (names.zip vs).reverse ++ s.bindings }

/-- The store at the end of a block: the variables are those from before it. -/
def back (s before : Store) : Store :=
  { s with bindings := s.bindings.drop (s.bindings.length - before.bindings.length) }

end Store

/-! ## Expressions -/

def literal : Literal → Value
  | .nil => .nil
  | .bool b => .bool b
  | .number n => .ofNumber n

/-- The text that a value contributes to a concatenation. -/
def piece : Value → Option String
  | .str s => some s
  | .int i => some (Value.int i).toText
  | .float d => some (Value.float d).toText
  | _ => none

def unaryValue (tables : Tables) : UnaryOp → Value → Option Value
  | .negate, v => (Operator.unm.apply v v).toOption
  | .complement, v => (Operator.bnot.apply v v).toOption
  | .not, v => some (.bool v.isFalsey)
  | .length, .str s => some (.int (Int64.ofNat s.length))
  | .length, .table r => some (.int (Int64.ofNat (tables r).length))
  | .length, _ => none

/-- Operators that have the values of both operands. -/
def binaryValue : BinaryOp → Value → Value → Option Value
  | .add, x, y => (Operator.add.apply x y).toOption
  | .sub, x, y => (Operator.sub.apply x y).toOption
  | .mul, x, y => (Operator.mul.apply x y).toOption
  | .div, x, y => (Operator.div.apply x y).toOption
  | .idiv, x, y => (Operator.idiv.apply x y).toOption
  | .mod, x, y => (Operator.mod.apply x y).toOption
  | .pow, x, y => (Operator.pow.apply x y).toOption
  | .band, x, y => (Operator.band.apply x y).toOption
  | .bor, x, y => (Operator.bor.apply x y).toOption
  | .bxor, x, y => (Operator.bxor.apply x y).toOption
  | .shl, x, y => (Operator.shl.apply x y).toOption
  | .shr, x, y => (Operator.shr.apply x y).toOption
  | .eq, x, y => some (.bool (x.rawEq y))
  | .ne, x, y => some (.bool (!x.rawEq y))
  | .lt, x, y => (lessThan x y).toOption.map .bool
  | .le, x, y => (lessEqual x y).toOption.map .bool
  | .gt, x, y => (lessThan y x).toOption.map .bool
  | .ge, x, y => (lessEqual y x).toOption.map .bool
  | .concat, x, y => do return .str ((← piece x) ++ (← piece y))
  | .and, x, y => some (if x.isFalsey then x else y)
  | .or, x, y => some (if x.isFalsey then y else x)

/-- The right operand of `and` and `or` has a value only if it is needed. -/
def value (s : Store) : Expr → Option Value
  | .literal v _ => some (literal v)
  | .str t _ => some (.str t)
  | .paren e _ => value s e
  | .name n _ => s.read n
  | .index e k _ => do element s.tables (← value s e) (← value s k)
  | .unary op e _ => do unaryValue s.tables op (← value s e)
  | .binary .and a b _ => do
    let x ← value s a
    if x.isFalsey then return x else value s b
  | .binary .or a b _ => do
    let x ← value s a
    if x.isFalsey then value s b else return x
  | .binary op a b _ => do binaryValue op (← value s a) (← value s b)
  | _ => none

/-- As many values as are wanted, with nil for those that are missing. -/
def adjust (count : Nat) (vs : List Value) : List Value :=
  vs.take count ++ List.replicate (count - vs.length) .nil

/-! ## Assignment -/

/-- Where an assignment stores a value. -/
inductive Place where
  | variable (name : String)
  | element (object key : Value)

def place (s : Store) : Expr → Option Place
  | .name n _ => some (.variable n)
  | .index e k _ => do return .element (← value s e) (← value s k)
  | _ => none

def Store.put (s : Store) : Place → Value → Option Store
  | .variable n, v => s.write n v
  | .element object key, v => do return { s with tables := ← setElement s.tables object key v }

/-- Stores values at their places, the last one first. -/
def Store.putAll (s : Store) : List Place → List Value → Option Store
  | p :: places, v :: vs => do (← s.putAll places vs).put p v
  | _, _ => some s

/-! ## Statements -/

/-- How statements end: with the next statement, with the end of the loop around them, with a
return, with an error, or not within the rounds that loops may take. -/
inductive Ending where
  | next (s : Store)
  | leave (s : Store)
  | returned (values : List Value) (tables : Tables)
  | failed
  | unfinished

namespace Ending

def andThen (e : Ending) (f : Store → Ending) : Ending :=
  match e with
  | .next s => f s
  | e => e

/-- The end of a block. -/
def closed (e : Ending) (before : Store) : Ending :=
  match e with
  | .next s => .next (s.back before)
  | .leave s => .leave (s.back before)
  | e => e

/-- The end of a round of a loop, and what follows it unless it leaves the loop. -/
def again (e : Ending) (f : Store → Ending) : Ending :=
  match e with
  | .next s => f s
  | .leave s => .next s
  | e => e

end Ending

/-- Goes on with a value unless there is none because of an error. -/
def attempt {α : Type} (x : Option α) (f : α → Ending) : Ending :=
  match x with
  | some a => f a
  | none => .failed

/-- A condition with what happens when it is true and when it is false. -/
def choose (s : Store) (c : Expr) (yes no : Ending) : Ending :=
  attempt (value s c) fun v => if v.isFalsey then no else yes

/-- Rounds one after the other until one of them leaves the loop. -/
def rounds (round : Store → Ending) : Nat → Store → Ending
  | 0, _ => .unfinished
  | n + 1, s => (round s).again (rounds round n)

/-- One round for each value. -/
def forEach (round : Value → Store → Ending) : List Value → Store → Ending
  | [], s => .next s
  | v :: vs, s => (round v s).again (forEach round vs)

/-- The integers from `first` on by steps, as far as `last`. -/
def progression (first last step : Int64) : List Value :=
  (List.range (Int.fdiv (last.toInt - first.toInt) step.toInt + 1).toNat).map fun (i : Nat) =>
    .int (Int64.ofInt (first.toInt + i * step.toInt))

/-- Rounds of a loop that is not over integers, as long as its control value allows. -/
def floatRounds (round : Value → Store → Ending) : Nat → NumericLoop → Store → Ending
  | 0, _, _ => .unfinished
  | n + 1, l, s =>
    (round l.control s).again fun s =>
      match l.next with
      | some l => floatRounds round n l s
      | none => .next s

/-- A loop between integers takes its rounds over the progression, whatever the last step would
lead to. -/
def numericLoop (n : Nat) (round : Value → Store → Ending) (first last step : Value) (s : Store) :
    Ending :=
  match first, last, step with
  | .int i, .int j, .int k => if k = 0 then .failed else forEach round (progression i j k) s
  | first, last, step =>
    match NumericLoop.start first last step with
    | .ok (some l) => floatRounds round n l s
    | .ok none => .next s
    | .error _ => .failed

mutual

/-- How a statement ends if each loop takes at most `n` rounds. -/
def exec (n : Nat) : Stmt → Store → Ending
  | .locals bs values _, s =>
    attempt (values.mapM (value s)) fun vs =>
      .next (s.declare (bs.map (·.name)) (adjust bs.length vs))
  | .assign left right _, s =>
    attempt (left.mapM (place s)) fun places =>
      attempt (right.mapM (value s)) fun vs =>
        attempt (s.putAll places (adjust left.length vs)) .next
  | .block body _, s => (execAll n body s).closed s
  | .cond c body more otherwise _, s =>
    choose s c ((execAll n body s).closed s)
      (execBranches n more
        (match otherwise with
          | none => .next s
          | some other => (execAll n other s).closed s) s)
  | .whileLoop c body _, s =>
    rounds (fun s => choose s c ((execAll n body s).closed s) (.leave s)) n s
  | .repeatLoop body c _, s =>
    rounds (fun s =>
      ((execAll n body s).andThen fun inner => choose inner c (.leave inner) (.next inner)).closed
        s) n s
  | .numericFor b start stop step body _, s =>
    attempt (value s start) fun first =>
      attempt (value s stop) fun last =>
        attempt (match step with
          | some e => value s e
          | none => some (.int 1)) fun k =>
          numericLoop n (fun v s => (execAll n body (s.declare [b.name] [v])).closed s)
            first last k s
  | .ret values _, s => attempt (values.mapM (value s)) fun vs => .returned vs s.tables
  | .exit _, s => .leave s
  | _, _ => .failed

def execAll (n : Nat) : List Stmt → Store → Ending
  | [], s => .next s
  | t :: rest, s => (exec n t s).andThen (execAll n rest)

/-- The first of the branches whose condition is true, or else `otherwise`. -/
def execBranches (n : Nat) : List Branch → Ending → Store → Ending
  | [], otherwise, _ => otherwise
  | .mk c body :: rest, otherwise, s =>
    choose s c ((execAll n body s).closed s) (execBranches n rest otherwise s)

end

/-- How a program ends whose globals are the fields of a table. -/
def run (n : Nat) (program : Block) (globals : Ref) (tables : Tables) : Ending :=
  match execAll n program ⟨[("_ENV", .table globals)], tables⟩ with
  | .next s => .returned [] s.tables
  | e => e

end Structured
end LuaMachine
