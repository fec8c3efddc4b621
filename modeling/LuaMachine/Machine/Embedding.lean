import LuaMachine.Machine.Run
/-! # Machines from outside

How an embedder makes a machine, gives it functions and lets it run program texts.

* `Machine.create`: a machine with an empty table of globals.
* `Machine.openBase`, `Machine.openHosts`: the base library and the embedder's functions as globals.
* `Machine.runText`: compiles and runs a program text.
* `Machine.objectCount`, `Machine.frameCount`, `Machine.poolCount`: counts for the embedder.
-/
set_option autoImplicit false

namespace LuaMachine
namespace Machine

/-- The table of globals comes first; the text of the memory error is made early, so that it is
there when nothing more can be made. -/
def prepare : Exec Unit := do
  let globals ← allocate (.table {})
  modify fun m => { m with globals := globals }
  let _ ← newText outOfMemoryText

/-- A machine with the functions that the embedder supplies; none of them is global yet. -/
def create (options : Options) (hosts : Array HostFunction) : Machine :=
  match prepare.run { options := options, hosts := hosts, threshold := options.initialThreshold } with
  | .ok _ m => m
  | .error _ m => m

/-- Makes the functions of the base library global, and the table of globals as `_G`. -/
def openBase : Exec Unit := do
  BaseFunction.registered.forM fun f => setGlobal f.name (.native (.base f))
  let globals := (← get).globals
  let key ← newText "_G"
  setKey globals key (.table globals)

/-- Makes the functions of the embedder from number `i` on global under these names. -/
def openHosts : Nat → List String → Exec Unit
  | _, [] => return
  | i, name :: rest => do
    setGlobal name (.native (.host i))
    openHosts (i + 1) rest

/-- Compiles and runs a text; that it is no program is an error like any other. -/
def runText (text name : String) : Exec (Except Value (List Value)) := do
  match ← compileText text name with
  | .ok p => invoke (← instantiate p none) []
  | .error e => return .error (← newText (e.located name))

/-- Calls a global function or another value without protection. -/
def callValue (callee : Value) (args : List Value) : Exec (List Value) :=
  call stepBudget callee args

/-- Calls a value and says whether that succeeded. -/
def tryCallValue (callee : Value) (args : List Value) : Exec (Bool × List Value) :=
  protectedCall stepBudget callee args

/-! ## Counts -/

def objectCount (m : Machine) : Nat := m.heap.objectCount

def frameCount (m : Machine) : Nat := m.frames.size

def poolCount (m : Machine) : Nat := m.pools.size

end Machine
end LuaMachine
