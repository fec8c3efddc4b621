import LuaMachine.Folding
import LuaMachine.Scope
import Std.Data.HashSet
/-! # Emitting instructions

The state in which a program is compiled, and what compiling an expression or a statement is put
together from: instructions, jumps, constants, registers, calls, lists of values, access to
globals, and blocks. What these need of an inner expression is passed to them as an action that
leaves its value in a given register.
-/
set_option autoImplicit false

namespace LuaMachine
namespace Generator

/-! ## State -/

/-- The scopes of the functions being compiled, innermost first; the line that instructions are
reported at; and the binders that inner functions use. -/
structure State where
  scopes : List FunctionScope
  line : Nat
  captured : Std.HashSet Nat

abbrev Gen := EStateM CompileFault State

instance : Inhabited FunctionScope := ⟨FunctionScope.create default⟩

def scope : Gen FunctionScope := do
  return (← get).scopes.headD default

def modifyScope (f : FunctionScope → FunctionScope) : Gen Unit :=
  modify fun s => { s with scopes := s.scopes.modifyHead f }

/-- An operation of the innermost scope. -/
def onScope {α : Type} (f : FunctionScope → Except CompileFault (FunctionScope × α)) : Gen α := do
  match f (← scope) with
  | .ok (new, a) =>
    modifyScope fun _ => new
    return a
  | .error e => throw e

def onScope' (f : FunctionScope → Except CompileFault FunctionScope) : Gen Unit :=
  onScope fun s => (f s).map fun new => (new, ())

def setLine (line : Nat) : Gen Unit := modify fun s => { s with line := line }

def currentLine : Gen Nat := do
  return (← get).line

def defect {α : Type} (text : String) : Gen α := throw (.defect text)

/-! ## Registers and names -/

def reserve (count line : Nat) : Gen Nat := do
  return (← onScope fun s => s.reserve count line).toNat

def release (register : Nat) : Gen Unit := onScope' fun s => s.release register

def free : Gen Nat := do
  return (← scope).free.toNat

/-- Gives back the registers from this one on, if there are any. -/
def releaseAbove (register : Nat) : Gen Unit := do
  if register < (← free) then release register

def addLocal (name : String) (captured constant : Bool) : Gen Unit :=
  onScope' fun s => s.addLocal name captured constant

def addBinder (b : Binder) : Gen Unit := do
  addLocal b.name ((← get).captured.contains b.number) b.constant

def resolve (name : String) (line : Nat) : Gen Reference := do
  let s ← get
  let (scopes, outcome) := FunctionScope.resolve name line s.scopes
  set { s with scopes := scopes }
  match outcome with
  | .ok r => return r
  | .error e => throw e

/-! ## Instructions and jumps -/

/-- The position of the next instruction. -/
def here : Gen Nat := do
  return (← scope).position

def emit (i : Instruction) : Gen Nat := do
  let position ← here
  let line ← currentLine
  modifyScope fun s =>
    { s with proto := { s.proto with chunk := s.proto.chunk.write i line } }
  return position

def emitAbc (op : Opcode) (a b c : Nat) : Gen Unit := do
  let _ ← emit (.abc op a b c)

def emitAbx (op : Opcode) (a bx : Nat) : Gen Unit := do
  let _ ← emit (.abx op a bx)

def emitExtra (n : Nat) : Gen Unit := do
  let _ ← emit (.ofAx .extra n)

/-- A jump whose target is filled in later. -/
def emitJump : Gen Nat := emit (.ofSignedAx .jump 0)

/-- An instruction of a loop whose target is filled in later. -/
def emitLoop (op : Opcode) (a : Nat) : Gen Nat := emit (.asbx op a 0)

def patch (position : Nat) (f : Instruction → Instruction) : Gen Unit :=
  modifyScope fun s =>
    { s with proto := { s.proto with chunk := s.proto.chunk.patch position f } }

def distance (position target : Nat) : Int := (target : Int) - (position + 1 : Nat)

def patchWithin (limit : Nat) (position target : Nat)
    (f : Instruction → Int → Instruction) : Gen Unit := do
  let d := distance position target
  if d.natAbs ≤ limit then patch position fun i => f i d
  else throw (.at "control structure too long" (← currentLine))

def patchJump (position target : Nat) : Gen Unit :=
  patchWithin Instruction.maxSignedAx position target Instruction.withSignedAx

def patchJumpHere (position : Nat) : Gen Unit := do
  patchJump position (← here)

def patchLoop (position target : Nat) : Gen Unit :=
  patchWithin Instruction.maxSignedBx position target Instruction.withSignedBx

def jumpBack (target : Nat) : Gen Unit := do
  patchJump (← emitJump) target

/-! ## Constants -/

def addConstant (k : Constant) : Gen Nat := do
  match (← scope).proto.chunk.placeOf k with
  | .ok place =>
    modifyScope fun s => { s with proto := { s.proto with chunk := s.proto.chunk.withConstant k } }
    return place
  | .error e => throw (.at e.message (← currentLine))

/-- The place of a key among the constants, if one byte can name it. -/
def keyPlace? (key : String) : Gen (Option Nat) := do
  let place ← addConstant (.str key)
  return if place ≤ 255 then some place else none

def loadConstant (register : Nat) (k : Constant) : Gen Unit :=
  match k with
  | .nil => emitAbc .loadNil register 1 0
  | .bool b => emitAbc .loadBool register (if b then 1 else 0) 0
  | k => do emitAbx .loadConstant register (← addConstant k)

def loadNils (register count : Nat) : Gen Unit := emitAbc .loadNil register count 0

/-- Takes registers for values that are missing, and loads nil into them. -/
def padNils (count line : Nat) : Gen Unit := do
  if 0 < count then
    let r ← reserve count line
    loadNils r count

/-! ## Values of expressions -/

/-- An action that leaves the value of an expression in a register. -/
abbrev Evaluation := Nat → Gen Unit

/-- Where the value of an expression goes: to a register, to a register of a concatenation, or to
the next registers, as a number of values or all that there are. -/
inductive Destination where
  | register (r : Nat)
  | part (r : Nat)
  | values (count : Option Nat)

def toTemporary (line : Nat) (e : Evaluation) : Gen Nat := do
  let r ← reserve 1 line
  e r
  return r

/-- A register that holds the value of an expression: that of a variable, or a new one. -/
def toAnyRegister (node : Expr) (e : Evaluation) : Gen Nat := do
  match node with
  | .name n line =>
    match ← resolve n line with
    | .register r _ => return r
    | _ => toTemporary line e
  | node => toTemporary node.line e

/-- A register that holds the value of an expression, a new one if it has to be `own`. -/
def toOperand (own : Bool) (node : Expr) (e : Evaluation) : Gen Nat :=
  if own then toTemporary node.line e else toAnyRegister node e

/-- The place of a text that stands as a key, if one byte can name it. -/
def fieldPlace? : Expr → Gen (Option Nat)
  | .str s _ => keyPlace? s
  | _ => return none

/-- The value of an expression that has exactly one. -/
def single (line : Nat) (destination : Destination) (e : Evaluation) : Gen Unit := do
  match destination with
  | .register r => e r
  | .part r => e r
  | .values (some 0) =>
    let saved ← free
    let _ ← toTemporary line e
    release saved
  | .values count =>
    let _ ← toTemporary line e
    padNils (count.getD 1 - 1) line

/-- A count as an operand: one more than the count, or zero for all values there are. -/
def countOperand : Option Nat → Nat
  | some n => n + 1
  | none => 0

def finishCall (base line : Nat) (args : Option Nat) (results : Option Nat) : Gen Unit := do
  setLine line
  emitAbc .call base (countOperand args) (countOperand results)
  release base
  let n := results.getD 0
  if 0 < n then
    let _ ← reserve n line

/-- A call; `args` leaves the arguments behind the function and gives their number. -/
def compileCall (line : Nat) (callee : Evaluation) (args : Gen (Option Nat))
    (results : Option Nat) : Gen Unit := do
  let base ← reserve 1 line
  callee base
  let n ← args
  finishCall base line n results

/-- A call of a method, with the object as the first argument. -/
def compileMethod (line : Nat) (object : Evaluation) (name : String) (args : Gen (Option Nat))
    (results : Option Nat) : Gen Unit := do
  let base ← reserve 1 line
  object base
  let _ ← reserve 1 line
  let key ← reserve 1 line
  setLine line
  emitAbx .loadConstant key (← addConstant (.str name))
  emitAbc .self base base key
  release key
  let n ← args
  finishCall base line (n.map (· + 1)) results

/-- The register is the topmost temporary one. -/
def isTop (r : Nat) : Gen Bool := do
  let s ← scope
  return r + 1 = s.free && s.localsLevel ≤ r

/-- A call leaves its value where it stands if that is the destination, and it is moved otherwise. -/
def callTo (r : Nat) (call : Option Nat → Gen Unit) : Gen Unit := do
  if ← isTop r then
    release r
    call (some 1)
  else
    let base ← free
    call (some 1)
    emitAbc .move r base 0
    release base

def called (destination : Destination) (call : Option Nat → Gen Unit) : Gen Unit :=
  match destination with
  | .register r => callTo r call
  | .part r => callTo r call
  | .values count => call count

def compileVararg (line : Nat) (destination : Destination) : Gen Unit := do
  setLine line
  match destination with
  | .register r => emitAbc .vararg r 0 2
  | .part r => emitAbc .vararg r 0 2
  | .values count =>
    let base ← free
    let n := count.getD 0
    if 0 < n then
      let _ ← reserve n line
    emitAbc .vararg base 0 (countOperand count)

/-- A list of expressions in the next registers, adjusted to a number of values, or kept as long
as it is; then the length is unknown if the last expression can give any number of values.
`items` leaves the values there, the last expression giving as many as it is told. -/
def adjusted (list : List Expr) (wanted : Option Nat) (items : Option Nat → Gen Unit) :
    Gen (Option Nat) := do
  let base ← free
  let count := list.length
  match list.getLast? with
  | none =>
    padNils (wanted.getD 0) (← currentLine)
    return some (wanted.getD 0)
  | some last =>
    items (wanted.map fun w => w - (count - 1))
    match wanted with
    | none => return if last.isMultiple then none else some count
    | some w =>
      padNils (if last.isMultiple then 0 else w - count) (← currentLine)
      releaseAbove (base + w)
      return some w

def unaryOpcode : UnaryOp → Opcode
  | .negate => .unm
  | .not => .not
  | .length => .length
  | .complement => .bnot

/-- An operator on two registers. A comparison by `>` or `>=` is one with the operands exchanged. -/
def emitBinary (op : BinaryOp) (target left right : Nat) : Gen Unit :=
  match op with
  | .add => emitAbc .add target left right
  | .sub => emitAbc .sub target left right
  | .mul => emitAbc .mul target left right
  | .div => emitAbc .div target left right
  | .idiv => emitAbc .idiv target left right
  | .mod => emitAbc .mod target left right
  | .pow => emitAbc .pow target left right
  | .band => emitAbc .band target left right
  | .bor => emitAbc .bor target left right
  | .bxor => emitAbc .bxor target left right
  | .shl => emitAbc .shl target left right
  | .shr => emitAbc .shr target left right
  | .eq => emitAbc .equal target left right
  | .ne => do
    emitAbc .equal target left right
    emitAbc .not target target 0
  | .lt => emitAbc .less target left right
  | .le => emitAbc .lessEqual target left right
  | .gt => emitAbc .less target right left
  | .ge => emitAbc .lessEqual target right left
  | _ => defect "unknown binary operator"

/-- The number of operands in a chain of concatenations. -/
def chainLength : Expr → Nat
  | .binary .concat _ r _ => chainLength r + 1
  | _ => 1

/-! ## Globals -/

/-- A global is a field of `_ENV`, which is an upvalue unless the program made it a variable. The
operations are given as: the field of a register, the element of a register, the field of an
upvalue. -/
def globalAccess (name : String) (field element upvalueField : Nat → Nat → Gen Unit) :
    Gen Unit := do
  let line ← currentLine
  let env ← resolve "_ENV" line
  let key ← keyPlace? name
  match env, key with
  | .register r _, some k => field r k
  | .register r _, none =>
    let keyRegister ← reserve 1 line
    emitAbx .loadConstant keyRegister (← addConstant (.str name))
    element r keyRegister
    release keyRegister
  | .upvalue u _, some k => upvalueField u k
  | .upvalue u _, none =>
    let r ← reserve 2 line
    emitAbc .getUpvalue r u 0
    emitAbx .loadConstant (r + 1) (← addConstant (.str name))
    element r (r + 1)
    release r
  | .global, _ =>
    defect ("_ENV is not reachable from '" ++ (← scope).proto.name ++ "'")

def globalGet (name : String) (target : Nat) : Gen Unit :=
  globalAccess name (fun r k => emitAbc .getField target r k)
    (fun r k => emitAbc .getTable target r k) (fun u k => emitAbc .getGlobal target u k)

def globalSet (name : String) (value : Nat) : Gen Unit :=
  globalAccess name (fun r k => emitAbc .setField r k value)
    (fun r k => emitAbc .setTable r k value) (fun u k => emitAbc .setGlobal u k value)

def compileName (name : String) (line target : Nat) : Gen Unit := do
  setLine line
  match ← resolve name line with
  | .register r _ => if r ≠ target then emitAbc .move target r 0
  | .upvalue u _ => emitAbc .getUpvalue target u 0
  | .global => globalGet name target

/-! ## Assignment -/

/-- Where an assignment stores a value, evaluated before the value is. -/
inductive Target where
  | variable (reference : Reference) (name : String)
  | field (table key : Nat)
  | element (table key : Nat)

def nameTarget (name : String) (line : Nat) : Gen Target := do
  let reference ← resolve name line
  if reference.isConstant then
    throw (.at ("attempt to assign to const variable '" ++ name ++ "'") line)
  return .variable reference name

def store (target : Target) (value : Nat) : Gen Unit :=
  match target with
  | .field t k => emitAbc .setField t k value
  | .element t k => emitAbc .setTable t k value
  | .variable (.register r _) _ => emitAbc .move r value 0
  | .variable (.upvalue u _) _ => emitAbc .setUpvalue value u 0
  | .variable .global name => globalSet name value

/-- Stores the values of consecutive registers, the last one first. -/
def storeAll : List Target → Nat → Gen Unit
  | [], _ => return
  | t :: rest, value => do
    storeAll rest (value + 1)
    store t value

/-! ## Conditions -/

/-- A jump that is taken when the condition is false. -/
def jumpIfFalse (condition : Expr) (e : Evaluation) : Gen Nat := do
  let saved ← free
  let r ← toAnyRegister condition e
  setLine condition.line
  emitAbc .test r 0 0
  let jump ← emitJump
  release saved
  return jump

/-- A jump over what follows, if something does. -/
def jumpOver (more : Bool) : Gen (List Nat) := do
  if more then return [← emitJump] else return []

/-- One condition of an `if` with what it guards; `more` says that something follows. The result
says whether the condition is always true, and where the jump over what follows is. -/
def clause (condition : Expr) (e : Evaluation) (body : Gen Unit) (more : Bool) :
    Gen (Bool × List Nat) := do
  match condition.fold with
  | some k =>
    if k.isFalsey then return (false, [])
    else
      body
      return (true, [])
  | none =>
    let next ← jumpIfFalse condition e
    body
    let jumps ← jumpOver more
    patchJumpHere next
    return (false, jumps)

/-! ## Blocks, labels and jumps -/

def currentBlock : Gen ScopeBlock := do
  return (← scope).blocks.headD { level := 0, isLoop := false }

def modifyBlock (f : ScopeBlock → ScopeBlock) : Gen Unit :=
  modifyScope fun s => { s with blocks := s.blocks.modifyHead f }

def beginBlock (isLoop : Bool) : Gen Unit := modifyScope fun s => s.beginBlock isLoop

def endBlock : Gen ScopeBlock := do
  let (s, block) := (← scope).endBlock
  modifyScope fun _ => s
  return block.getD { level := 0, isLoop := false }

def closeFrom (level : Nat) : Gen Unit := emitAbc .close level 0 0

def closeIf (captured : Bool) (level : Nat) : Gen Unit := do
  if captured then closeFrom level

/-- Ends a block inside of a function: captured variables are closed, and jumps that wait for
their label wait on in the block around it. -/
def closeBlock : Gen ScopeBlock := do
  let open' ← currentBlock
  closeIf open'.hasCaptured open'.level
  let block ← endBlock
  if (← scope).blocks.isEmpty then
    match block.gotos with
    | [] => return block
    | g :: _ => defect ("unresolved goto '" ++ g.name ++ "' passed analysis")
  else
    modifyBlock fun outer => { outer with gotos := outer.gotos ++ block.gotos }
    return block

/-- What stands in a block of its own. -/
def inBlock (isLoop : Bool) (body : Gen Unit) : Gen ScopeBlock := do
  beginBlock isLoop
  body
  closeBlock

def patchBreaks (block : ScopeBlock) : Gen Unit := block.breaks.forM patchJumpHere

/-- A captured variable lives in this register or above it. -/
def reaches (level : Nat) : Option Nat → Bool
  | some r => level ≤ r
  | none => false

/-- The innermost loop gets a further jump that leaves it. -/
def withBreak (jump : Nat) (blocks : List ScopeBlock) : List ScopeBlock :=
  let inner := blocks.takeWhile fun b => !b.isLoop
  inner ++ (blocks.drop inner.length).modifyHead fun b => { b with breaks := b.breaks ++ [jump] }

def compileBreak (line : Nat) : Gen Unit := do
  setLine line
  match (← scope).innermostLoop with
  | none => defect "break outside a loop passed analysis"
  | some loop =>
    closeIf (reaches loop.level (← scope).highestCaptured) loop.level
    let jump ← emitJump
    modifyScope fun s => { s with blocks := withBreak jump s.blocks }

def compileGoto (name : String) (line : Nat) : Gen Unit := do
  setLine line
  let s ← scope
  match (s.blocks.flatMap fun b => b.labels).find? fun l => l.name == name with
  | some l =>
    closeIf (reaches l.level s.highestCaptured) l.level
    jumpBack l.position
  | none =>
    let jump ← emitJump
    modifyBlock fun b => { b with gotos := b.gotos ++ [⟨name, jump, s.highestCaptured⟩] }

/-- A label; jumps that wait for it arrive here, and close captured variables that they leave. -/
def compileLabel (name : String) (line : Nat) (atEnd : Bool) : Gen Unit := do
  setLine line
  let block ← currentBlock
  let declared := (← scope).localsLevel
  let level := if atEnd then block.level else declared
  let arriving := block.gotos.filter fun g => g.name == name
  let position ← here
  closeIf (arriving.any fun g => reaches level g.highestCaptured) level
  modifyBlock fun b =>
    { b with
      labels := b.labels ++ [⟨name, position, level⟩]
      gotos := b.gotos.filter fun g => g.name != name }
  arriving.forM fun g => patchJump g.position position

/-! ## Loops -/

/-- The end of a `repeat` loop: the jump back to its start, unless the condition holds. Captured
variables are closed on both ways. -/
def repeatUntil (start : Nat) (condition : Expr) (e : Evaluation) : Gen Unit := do
  let block ← currentBlock
  match condition.fold with
  | some k =>
    if k.isFalsey then
      setLine condition.line
      closeIf block.hasCaptured block.level
      jumpBack start
  | none =>
    let saved ← free
    let r ← toAnyRegister condition e
    setLine condition.line
    if block.hasCaptured then
      emitAbc .test r 1 0
      let leave ← emitJump
      release saved
      closeFrom block.level
      jumpBack start
      patchJumpHere leave
    else
      emitAbc .test r 0 0
      jumpBack start
      release saved

/-- The variables that hold the state of a loop. -/
def addLoopState : Gen Unit := do
  addLocal "(for state)" false false
  addLocal "(for state)" false false
  addLocal "(for state)" false false

/-! ## Functions -/

/-- The register of the variable that is all there is to return. -/
def returnedVariable : List Expr → Gen (Option Nat)
  | [.name n line] => do
    match ← resolve n line with
    | .register r _ => return some r
    | _ => return none
  | _ => return none

/-- Compiles a function in a scope of its own and gives its place among the children. -/
def compileFunction (proto : Prototype) (params : List Binder) (body : Gen Unit)
    (endLine : Nat) : Gen Nat := do
  let saved ← currentLine
  let source := (← scope).proto.source
  modify fun s =>
    { s with scopes := FunctionScope.create { proto with source := source } :: s.scopes }
  setLine proto.line
  beginBlock false
  let _ ← reserve params.length proto.line
  params.forM addBinder
  body
  setLine endLine
  emitAbc .ret 0 1 0
  let _ ← endBlock
  let child := (← scope).proto
  modify fun s => { s with scopes := s.scopes.tail, line := saved }
  let place := (← scope).proto.children.size
  if Instruction.maxBx ≤ place then throw (.at "too many nested functions" proto.line)
  modifyScope fun s => { s with proto := { s.proto with children := s.proto.children.push child } }
  return place

end Generator
end LuaMachine
