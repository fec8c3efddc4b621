import LuaMachine.Prototype
/-! # Closures and upvalues

An upvalue is a variable that a closure shares with the function that declared it. While that
function runs, the upvalue is open and stands for a slot of the stack; it is closed once, when the
variable goes out of scope, and from then on holds the value itself.
-/
set_option autoImplicit false

namespace LuaMachine

inductive Upvalue where
  | opened (slot : Nat)
  | closed (value : Value)

namespace Upvalue

def isClosed : Upvalue → Bool
  | .opened _ => false
  | .closed _ => true

def get (u : Upvalue) (stack : Array Value) : Value :=
  match u with
  | .opened slot => stack.getD slot .nil
  | .closed v => v

/-- Assignment goes to the slot of an open upvalue and to a closed upvalue itself. -/
def set (u : Upvalue) (stack : Array Value) (v : Value) : Upvalue × Array Value :=
  match u with
  | .opened slot => (u, stack.setIfInBounds slot v)
  | .closed _ => (.closed v, stack)

/-- Copies the slot of an open upvalue; closing a closed one is a defect. -/
def close (u : Upvalue) (stack : Array Value) : Except Fault Upvalue :=
  match u with
  | .opened slot => .ok (.closed (stack.getD slot .nil))
  | .closed _ => .error (.defect "upvalue closed twice")

end Upvalue

/-- Which prototype a closure runs: the number of the program it belongs to, and the way to it
through the children, the last step first. -/
structure PrototypeId where
  program : Nat
  path : List Nat
deriving DecidableEq, Hashable, Repr, Inhabited

def PrototypeId.child (id : PrototypeId) (i : Nat) : PrototypeId :=
  { id with path := i :: id.path }

/-- A function value: the prototype it runs and its upvalues, which are filled in one by one. -/
structure Closure where
  id : PrototypeId
  prototype : Prototype
  upvalues : Array (Option Ref)

namespace Closure

/-- A closure whose upvalues are all missing. -/
def create (id : PrototypeId) (p : Prototype) : Closure :=
  ⟨id, p, Array.replicate p.upvalues.size none⟩

def upvalue? (c : Closure) (i : Nat) : Option Ref := (c.upvalues[i]?).join

def setUpvalue (c : Closure) (i : Nat) (u : Option Ref) : Except Fault Closure :=
  if i < c.upvalues.size then .ok { c with upvalues := c.upvalues.setIfInBounds i u }
  else .error (.defect ("upvalue index " ++ toString i ++ " out of range"))

end Closure
end LuaMachine
