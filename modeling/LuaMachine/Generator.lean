import LuaMachine.Generator.Emission
import LuaMachine.Tree.Capture
import LuaMachine.Tree.Parser
/-! # From trees to instructions

Compiles a program to a prototype. Expressions are evaluated from left to right into registers;
constant expressions are folded, a branch that is never taken is left out, and a chain of
concatenations is one instruction.

* `Generator.evaluate`, `Generator.statement`: expressions and statements.
* `generate`: the prototype of a program.
* `compile`: the prototype of a program text.
-/
set_option autoImplicit false

namespace LuaMachine
namespace Generator

/-- The number of array items of a table constructor that are stored at once. -/
def itemsPerStore : Nat := 50

/-- Stores the pending array items of a table; `count` is zero if their number is open. -/
def storeItems (table count stored line : Nat) : Gen Unit := do
  setLine line
  emitAbc .setList table count 0
  emitExtra stored
  release (table + 1)

mutual

/-- The value of an expression at its destination. -/
def evaluate : Expr → Destination → Gen Unit
  | .literal v line, d => single line d fun r => do
    setLine line
    loadConstant r v.constant
  | .str s line, d => single line d fun r => do
    setLine line
    loadConstant r (.str s)
  | .unary op e line, d => single line d fun r => do
    match (Expr.unary op e line).fold with
    | some k =>
      setLine line
      loadConstant r k
    | none =>
      let saved ← free
      let operand ← toAnyRegister e fun t => evaluate e (.register t)
      setLine line
      emitAbc (unaryOpcode op) r operand 0
      release saved
  | .binary .concat a b _, .part r => do
    evaluate a (.register r)
    evaluate b (.part (r + 1))
  | .binary op a b line, d => single line d fun r => do
    match (Expr.binary op a b line).fold with
    | some k =>
      setLine line
      loadConstant r k
    | none =>
      match op with
      | .and | .or =>
        evaluate a (.register r)
        setLine line
        emitAbc .test r (if op = .or then 1 else 0) 0
        let skip ← emitJump
        evaluate b (.register r)
        patchJumpHere skip
      | .concat =>
        let count := chainLength b + 1
        let base ← reserve count line
        evaluate a (.register base)
        evaluate b (.part (base + 1))
        setLine line
        emitAbc .concat r base count
        release base
      | op =>
        let saved ← free
        let left ← toAnyRegister a fun t => evaluate a (.register t)
        let right ← toAnyRegister b fun t => evaluate b (.register t)
        setLine line
        emitBinary op r left right
        release saved
  | .name n line, d => single line d fun r => compileName n line r
  | .vararg line, d => compileVararg line d
  | .paren e line, d => single line d fun r => evaluate e (.register r)
  | .call f args line, d =>
    called d fun results =>
      compileCall line (fun r => evaluate f (.register r))
        (adjusted args none fun last => items args last) results
  | .method e name args line, d =>
    called d fun results =>
      compileMethod line (fun r => evaluate e (.register r)) name
        (adjusted args none fun last => items args last) results
  | .table fs line, d => single line d fun r => do
    setLine line
    if ← isTop r then
      emitAbc .newTable r 0 0
      fields fs r line 0 0
    else
      let table ← reserve 1 line
      emitAbc .newTable table 0 0
      fields fs table line 0 0
      emitAbc .move r table 0
      release table
  | .index e k line, d => single line d fun r => do
    let saved ← free
    let table ← toAnyRegister e fun t => evaluate e (.register t)
    match ← fieldPlace? k with
    | some p =>
      setLine line
      emitAbc .getField r table p
    | none =>
      let key ← toAnyRegister k fun t => evaluate k (.register t)
      setLine line
      emitAbc .getTable r table key
    release saved
  | .function (.mk name params variadic body line endLine), d =>
    single line d fun r => do
      let place ← function (.mk name params variadic body line endLine)
      setLine line
      emitAbx .closure r place

/-- Expressions in consecutive registers; the last one gives as many values as it is told. -/
def items : List Expr → Option Nat → Gen Unit
  | [], _ => return
  | e :: rest, last => do
    if rest.isEmpty && e.isMultiple then evaluate e (.values last)
    else
      let _ ← toTemporary e.line fun t => evaluate e (.register t)
    items rest last

/-- The entries of a table constructor, with `pending` array items in registers above the table
and `stored` ones in it. -/
def fields : List Field → Nat → Nat → Nat → Nat → Gen Unit
  | [], table, line, pending, stored =>
    if 0 < pending then storeItems table pending stored line else return
  | .pair k e :: rest, table, line, pending, stored => do
    let saved ← free
    match ← fieldPlace? k with
    | some p =>
      let value ← toAnyRegister e fun t => evaluate e (.register t)
      setLine line
      emitAbc .setField table p value
    | none =>
      let key ← toAnyRegister k fun t => evaluate k (.register t)
      let value ← toAnyRegister e fun t => evaluate e (.register t)
      setLine line
      emitAbc .setTable table key value
    release saved
    fields rest table line pending stored
  | .item e :: rest, table, line, pending, stored => do
    if rest.isEmpty && e.isMultiple then
      evaluate e (.values none)
      storeItems table 0 stored line
      fields rest table line 0 stored
    else
      let _ ← toTemporary e.line fun t => evaluate e (.register t)
      if pending + 1 = itemsPerStore then
        storeItems table (pending + 1) stored line
        fields rest table line 0 (stored + (pending + 1))
      else fields rest table line (pending + 1) stored

/-- The place of a compiled function among the children of the function around it. -/
def function : Function → Gen Nat
  | .mk name params variadic body line endLine =>
    compileFunction
      { (default : Prototype) with
        name := name
        line := line
        params := params.length
        variadic := variadic }
      params (statements true body) endLine

/-- Evaluates what an assignment stores to. With several targets, tables and keys are kept in
registers of their own. -/
def target : Expr → Bool → Gen Target
  | .name n line, _ => nameTarget n line
  | .index e k _, several => do
    let table ← toOperand several e fun t => evaluate e (.register t)
    match ← fieldPlace? k with
    | some p => return .field table p
    | none =>
      let key ← toOperand several k fun t => evaluate k (.register t)
      return .element table key
  | _, _ => defect "invalid assignment target"

def targets : List Expr → Bool → Gen (List Target)
  | [], _ => return []
  | e :: rest, several => do
    let t ← target e several
    return t :: (← targets rest several)

/-- Further conditions of an `if`, unless an earlier one is always true. -/
def branches : List Branch → Bool → Gen (Bool × List Nat)
  | [], _ => return (false, [])
  | .mk condition body :: rest, hasElse => do
    let (decided, jumps) ←
      clause condition (fun t => evaluate condition (.register t))
        (do let _ ← inBlock false (statements true body))
        (!rest.isEmpty || hasElse)
    if decided then return (true, jumps)
    else
      let (decided, more) ← branches rest hasElse
      return (decided, jumps ++ more)

def statement : Stmt → Gen Unit
  | .expr e line => do
    setLine line
    let saved ← free
    evaluate e (.values (some 0))
    release saved
  | .assign left right line => do
    setLine line
    let saved ← free
    let prepared ← targets left (1 < left.length)
    let base ← free
    let _ ← adjusted right (some left.length) fun last => items right last
    setLine line
    storeAll prepared base
    release saved
  | .locals bs values line => do
    setLine line
    let _ ← adjusted values (some bs.length) fun last => items values last
    bs.forM addBinder
  | .localFunction b f line => do
    setLine line
    let r ← reserve 1 line
    addBinder b
    let place ← function f
    setLine line
    emitAbx .closure r place
  | .function left f line => do
    setLine line
    let saved ← free
    let t ← target left false
    let value ← reserve 1 line
    let place ← function f
    setLine line
    emitAbx .closure value place
    store t value
    release saved
  | .block body line => do
    setLine line
    let _ ← inBlock false (statements true body)
  | .cond condition body more otherwise line => do
    setLine line
    let hasElse := otherwise.isSome
    let (decided, jumps) ←
      clause condition (fun t => evaluate condition (.register t))
        (do let _ ← inBlock false (statements true body))
        (!more.isEmpty || hasElse)
    let (decided, further) ←
      (if decided then return (true, []) else branches more hasElse : Gen (Bool × List Nat))
    (match otherwise with
      | none => return
      | some body =>
        if decided then return
        else do
          let _ ← inBlock false (statements true body) : Gen Unit)
    (jumps ++ further).forM patchJumpHere
  | .whileLoop condition body line => do
    setLine line
    match condition.fold with
    | some k =>
      if k.isFalsey then return
      else
        let start ← here
        let loop ← inBlock true (statements true body)
        setLine line
        jumpBack start
        patchBreaks loop
    | none =>
      let start ← here
      let leave ← jumpIfFalse condition fun t => evaluate condition (.register t)
      let loop ← inBlock true (statements true body)
      setLine line
      jumpBack start
      patchJumpHere leave
      patchBreaks loop
  | .repeatLoop body condition line => do
    setLine line
    let start ← here
    beginBlock true
    statements false body
    repeatUntil start condition fun t => evaluate condition (.register t)
    let loop ← closeBlock
    patchBreaks loop
  | .numericFor b start stop step body line => do
    setLine line
    beginBlock false
    let base ← toTemporary start.line fun t => evaluate start (.register t)
    let _ ← toTemporary stop.line fun t => evaluate stop (.register t)
    let _ ←
      (match step with
      | some e => toTemporary e.line fun t => evaluate e (.register t)
      | none => toTemporary line fun r => loadConstant r (.int 1) : Gen Nat)
    addLoopState
    setLine line
    let prepare ← emitLoop .forPrepare base
    beginBlock true
    let _ ← reserve 1 line
    addBinder b
    let bodyStart ← here
    statements true body
    let loop ← closeBlock
    setLine line
    let back ← emitLoop .forLoop base
    patchLoop back bodyStart
    patchLoop prepare back
    patchBreaks loop
    let _ ← closeBlock
  | .genericFor bs iterators body line => do
    setLine line
    beginBlock false
    let base ← free
    let _ ← adjusted iterators (some 3) fun last => items iterators last
    addLoopState
    setLine line
    let enter ← emitJump
    beginBlock true
    let _ ← reserve bs.length line
    onScope' fun s => s.ensureRegisters (base + 3 + max bs.length 3) line
    bs.forM addBinder
    let bodyStart ← here
    statements true body
    let loop ← closeBlock
    setLine line
    patchJumpHere enter
    emitAbc .iterCall base 0 bs.length
    let back ← emitLoop .iterLoop base
    patchLoop back bodyStart
    patchBreaks loop
    let _ ← closeBlock
  | .ret values line => do
    setLine line
    match ← returnedVariable values, values.isEmpty with
    | some r, _ => emitAbc .ret r 2 0
    | none, true => emitAbc .ret 0 1 0
    | none, false =>
      let base ← free
      let count ← adjusted values none fun last => items values last
      setLine line
      emitAbc .ret base (countOperand count) 0
      release base
  | .exit line => compileBreak line
  | .goto name line => compileGoto name line
  | .label name line => compileLabel name line false

/-- The statements of a block. Labels that end the block are beyond its variables, unless a
condition follows that still sees them. -/
def statements (endsBlock : Bool) : List Stmt → Gen Unit
  | [] => return
  | .label name line :: rest => do
    compileLabel name line (endsBlock && rest.all Stmt.isLabel)
    statements endsBlock rest
  | s :: rest => do
    statement s
    statements endsBlock rest

end

/-- The prototype of a main program before its instructions: any number of arguments, and `_ENV`
as the only upvalue. -/
def mainPrototype (name : String) : Prototype :=
  { (default : Prototype) with
    name := name
    source := name
    variadic := true
    upvalues := #[⟨"_ENV", false, 0⟩] }

end Generator

/-- The prototype of a program. -/
def generate (program : Block) (name : String) : Except CompileFault Prototype :=
  match capturedBinders program with
  | .error e => .error (.error e)
  | .ok captured =>
    let generation : Generator.Gen Prototype := do
      Generator.beginBlock false
      Generator.statements true program
      Generator.emitAbc .ret 0 1 0
      let _ ← Generator.endBlock
      return (← Generator.scope).proto
    match generation.run ⟨[FunctionScope.create (Generator.mainPrototype name)], 1, captured⟩ with
    | .ok proto _ => .ok proto
    | .error e _ => .error e

/-- The prototype of a program text. -/
def compile (text name : String) : Except CompileFault Prototype :=
  match parse text with
  | .ok program => generate program name
  | .error e => .error (.error e)

end LuaMachine
