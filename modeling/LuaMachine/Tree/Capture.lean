import LuaMachine.Fault
import LuaMachine.Tree
import Std.Data.HashSet
/-! # Captured variables

Before a program is compiled, every name is resolved once. A variable that an inner function uses
is captured. A name that no binder declares stands for a field of `_ENV`, which may itself be a
variable of an outer function. On the way, every `break`, `goto` and label is checked: a `break`
stands in a loop, a `goto` finds a visible label and does not jump into the scope of a variable.

* `capturedBinders`: the numbers of the captured binders of a program.
-/
set_option autoImplicit false

namespace LuaMachine
namespace Capture

/-! ## State -/

/-- A variable in scope, with the number of its binder and the depth of its function. -/
structure Binding where
  name : String
  number : Nat
  depth : Nat

structure VisibleLabel where
  name : String
  line : Nat
  level : Nat

/-- A `goto` whose label is still to come; `level` counts the variables in scope where it stands,
as far as they are in scope in the current block. -/
structure PendingGoto where
  name : String
  line : Nat
  level : Nat

structure OpenBlock where
  level : Nat
  isLoop : Bool
  labels : List VisibleLabel := []
  gotos : List PendingGoto := []

/-- A function being read: how many variables outer functions have in scope, how many loops are
open, and the open blocks, innermost first. -/
structure OpenFunction where
  start : Nat
  loops : Nat := 0
  blocks : List OpenBlock := []

/-- Variables in scope and open functions, both innermost first, and what is captured so far. -/
structure State where
  bindings : List Binding := []
  functions : List OpenFunction := []
  captured : Std.HashSet Nat := {}

abbrev Analysis := EStateM CompileError State

def currentFunction : Analysis OpenFunction := do
  return (← get).functions.headD ⟨0, 0, []⟩

def modifyFunction (f : OpenFunction → OpenFunction) : Analysis Unit :=
  modify fun s => { s with functions := s.functions.modifyHead f }

def modifyBlock (f : OpenBlock → OpenBlock) : Analysis Unit :=
  modifyFunction fun fn => { fn with blocks := fn.blocks.modifyHead f }

def currentBlock : Analysis OpenBlock := do
  return (← currentFunction).blocks.headD ⟨0, false, [], []⟩

/-- The number of variables of the current function that are in scope. -/
def level : Analysis Nat := do
  return (← get).bindings.length - (← currentFunction).start

def fail {α : Type} (message : String) (line : Nat) : Analysis α := throw ⟨message, some line⟩

/-! ## Names -/

def declare (b : Binder) : Analysis Unit :=
  modify fun s =>
    { s with bindings := ⟨b.name, b.number, s.functions.length⟩ :: s.bindings }

def declareAll (bs : List Binder) : Analysis Unit := bs.forM declare

/-- Uses the variable of a name; false if there is none. -/
def refer? (name : String) : Analysis Bool := do
  let s ← get
  match s.bindings.find? fun b => b.name == name with
  | some b =>
    if b.depth ≠ s.functions.length then
      set { s with captured := s.captured.insert b.number }
    return true
  | none => return false

def refer (name : String) : Analysis Unit := do
  if !(← refer? name) then
    let _ ← refer? "_ENV"

/-! ## Blocks, labels and jumps -/

def openBlock (isLoop : Bool) : Analysis Unit := do
  let n ← level
  modifyFunction fun fn =>
    { fn with
      loops := if isLoop then fn.loops + 1 else fn.loops
      blocks := { level := n, isLoop := isLoop } :: fn.blocks }

/-- Ends a block: its variables go out of scope, and a `goto` that waits for its label waits on in
the block around it. -/
def closeBlock : Analysis Unit := do
  let fn ← currentFunction
  match fn.blocks with
  | [] => return
  | block :: outer =>
    modify fun s =>
      { s with bindings := s.bindings.drop (s.bindings.length - (fn.start + block.level)) }
    let waiting := block.gotos.map fun g => { g with level := min g.level block.level }
    modifyFunction fun fn =>
      { fn with
        loops := if block.isLoop then fn.loops - 1 else fn.loops
        blocks := outer.modifyHead fun b => { b with gotos := b.gotos ++ waiting } }
    if outer.isEmpty then
      match block.gotos with
      | [] => return
      | g :: _ =>
        fail ("no visible label '" ++ g.name ++ "' for <goto> at line " ++ toString g.line) g.line

/-- Puts a label into the current block and lets the `goto`s that wait for it there find it. At
the end of a block, the variables of the block no longer count. -/
def declareLabel (name : String) (line : Nat) (atEnd : Bool) : Analysis Unit := do
  let fn ← currentFunction
  match (fn.blocks.flatMap fun b => b.labels).find? fun l => l.name == name with
  | some l =>
    fail ("label '" ++ name ++ "' already defined on line " ++ toString l.line) line
  | none =>
    let block ← currentBlock
    let n ← if atEnd then pure block.level else level
    match block.gotos.find? fun g => g.name == name && g.level < n with
    | some g =>
      let inScope := (← get).bindings.reverse.drop (fn.start + g.level)
      let entered := (inScope.head?.map (·.name)).getD ""
      fail ("<goto " ++ name ++ "> at line " ++ toString g.line
        ++ " jumps into the scope of local '" ++ entered ++ "'") g.line
    | none =>
      modifyBlock fun b =>
        { b with
          labels := b.labels ++ [⟨name, line, n⟩]
          gotos := b.gotos.filter fun g => g.name != name }

def jumpTo (name : String) (line : Nat) : Analysis Unit := do
  let fn ← currentFunction
  if fn.blocks.any fun b => b.labels.any fun l => l.name == name then return
  else
    let n ← level
    modifyBlock fun b => { b with gotos := b.gotos ++ [⟨name, line, n⟩] }

def leaveLoop (line : Nat) : Analysis Unit := do
  if (← currentFunction).loops = 0 then
    fail ("break outside a loop at line " ++ toString line) line

def openFunction : Analysis Unit := do
  modify fun s => { s with functions := ⟨s.bindings.length, 0, []⟩ :: s.functions }
  openBlock false

def closeFunction : Analysis Unit := do
  closeBlock
  modify fun s => { s with functions := s.functions.tail }

/-! ## The traversal -/

mutual

def expr : Expr → Analysis Unit
  | .literal _ _ => return
  | .str _ _ => return
  | .unary _ e _ => expr e
  | .binary _ l r _ => do
    expr l
    expr r
  | .name n _ => refer n
  | .vararg _ => return
  | .paren e _ => expr e
  | .call f args _ => do
    expr f
    exprs args
  | .method e _ args _ => do
    expr e
    exprs args
  | .table fs _ => fields fs
  | .index e k _ => do
    expr e
    expr k
  | .function f => function f

def exprs : List Expr → Analysis Unit
  | [] => return
  | e :: rest => do
    expr e
    exprs rest

def field : Field → Analysis Unit
  | .item e => expr e
  | .pair k e => do
    expr k
    expr e

def fields : List Field → Analysis Unit
  | [] => return
  | f :: rest => do
    field f
    fields rest

def function : Function → Analysis Unit
  | .mk _ params _ body _ _ => do
    openFunction
    declareAll params
    stmts true body
    closeFunction

def branch : Branch → Analysis Unit
  | .mk condition body => do
    expr condition
    openBlock false
    stmts true body
    closeBlock

def branches : List Branch → Analysis Unit
  | [] => return
  | b :: rest => do
    branch b
    branches rest

def stmt : Stmt → Analysis Unit
  | .expr e _ => expr e
  | .assign targets values _ => do
    exprs targets
    exprs values
  | .locals bs values _ => do
    exprs values
    declareAll bs
  | .localFunction b f _ => do
    declare b
    function f
  | .function target f _ => do
    expr target
    function f
  | .block body _ => do
    openBlock false
    stmts true body
    closeBlock
  | .cond condition body more otherwise _ => do
    expr condition
    openBlock false
    stmts true body
    closeBlock
    branches more
    match otherwise with
    | none => return
    | some body =>
      openBlock false
      stmts true body
      closeBlock
  | .whileLoop condition body _ => do
    expr condition
    openBlock true
    stmts true body
    closeBlock
  | .repeatLoop body condition _ => do
    openBlock true
    stmts false body
    expr condition
    closeBlock
  | .numericFor b start stop step body _ => do
    expr start
    expr stop
    match step with
    | none => pure ()
    | some e => expr e
    openBlock true
    declare b
    stmts true body
    closeBlock
  | .genericFor bs iterators body _ => do
    exprs iterators
    openBlock true
    declareAll bs
    stmts true body
    closeBlock
  | .ret values _ => exprs values
  | .exit line => leaveLoop line
  | .goto name line => jumpTo name line
  | .label name line => declareLabel name line false

/-- The statements of a block. Labels that end the block are beyond its variables, unless a
condition follows that still sees them. -/
def stmts (endsBlock : Bool) : List Stmt → Analysis Unit
  | [] => return
  | .label name line :: rest => do
    declareLabel name line (endsBlock && rest.all Stmt.isLabel)
    stmts endsBlock rest
  | s :: rest => do
    stmt s
    stmts endsBlock rest

end

end Capture

/-- The numbers of the binders of a program that inner functions use. -/
def capturedBinders (program : Block) : Except CompileError (Std.HashSet Nat) :=
  let analysis : Capture.Analysis Unit := do
    Capture.openFunction
    Capture.stmts true program
    Capture.closeFunction
  match analysis.run {} with
  | .ok _ s => .ok s.captured
  | .error e _ => .error e

end LuaMachine
