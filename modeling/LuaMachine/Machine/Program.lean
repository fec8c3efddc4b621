import LuaMachine.Generator
import LuaMachine.Machine.State
/-! # Programs and globals

A program text is compiled to a program, and a closure made from a program runs it. The closure has
one upvalue, which holds the table of globals.

* `Machine.pin`, `Machine.unpin`: values that a collection keeps although nothing leads to them.
* `Machine.compileText`, `Machine.instantiate`: from a text to a closure.
* `Machine.setGlobal`, `Machine.getGlobal`: the table of globals.
-/
set_option autoImplicit false

namespace LuaMachine

/-- A compiled program. Programs differ in their numbers even if they were made from one text. -/
structure Program where
  id : PrototypeId
  prototype : Prototype

namespace Machine

/-! ## Pins -/

def pin (v : Value) : Exec Unit := modify fun m => { m with pinned := v :: m.pinned }

/-- Removes the newest pin that equals the value. -/
def unpin (v : Value) : Exec Unit :=
  modify fun m => { m with pinned := m.pinned.eraseP fun p => p.rawEq v }

/-! ## Programs -/

def addProgram (p : Prototype) : Exec Program :=
  modifyGet fun m => (⟨⟨m.programs, []⟩, p⟩, { m with programs := m.programs + 1 })

/-- The program of a text, unless the text is no program. -/
def compileText (text name : String) : Exec (Except CompileError Program) := do
  match compile text name with
  | .ok p => return .ok (← addProgram p)
  | .error (.error e) => return .error e
  | .error (.defect text) => throw (.defect text)

/-- A closure of a program over a table of globals, which is the machine's own one if none is
given. -/
def instantiate (p : Program) (globals : Option Ref) : Exec Ref := do
  let environment := Value.table (globals.getD (← get).globals)
  pin environment
  let closure := Closure.create p.id p.prototype
  let r ← allocate (.closure closure)
  pin (.closure r)
  if closure.upvalues.size ≠ 0 then
    let u ← allocate (.upvalue (.closed environment))
    match closure.setUpvalue 0 (some u) with
    | .ok closure => modifyHeap fun h => h.setClosure r closure
    | .error fault => throw fault
  unpin (.closure r)
  unpin environment
  return r

/-! ## Globals -/

/-- The value is pinned until it is stored, since making the name may collect. -/
def setGlobal (name : String) (v : Value) : Exec Unit := do
  pin v
  let key ← newText name
  unpin v
  setKey (← get).globals key v

def getGlobal (name : String) : Exec Value := do
  let key ← newText name
  let m ← get
  return (m.heap.table m.globals).get key

end Machine
end LuaMachine
