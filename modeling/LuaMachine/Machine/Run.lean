import LuaMachine.Machine.Library
import LuaMachine.Machine.Step
/-! # Runs

Instructions one after the other, calls, and native functions. A run has a budget of steps; a fault
of its own says that the budget is used up. Closures that call closures share one loop, which holds
their frames; a native function that calls a function begins a loop inside of the one it was called
from, and these are nested only so deep.

* `Machine.execute`: the loop.
* `Machine.call`, `Machine.protectedCall`: calls by native functions.
* `Machine.invoke`: a call from outside.
-/
set_option autoImplicit false

namespace LuaMachine
namespace Machine

/-- What a failed call left behind is dropped, and the error value is given. A fault that a script
cannot catch goes on. -/
def recover (frameCount top : Nat) (fault : Fault) : Exec Value := do
  match fault with
  | .script v _ =>
    unwind frameCount top
    return v
  | .runtime e =>
    let text ← positioned e
    unwind frameCount top
    return .str text
  | .outOfMemory =>
    unwind frameCount top
    return .str outOfMemoryText
  | fault => throw fault

mutual

/-- Executes instructions until a closure returns to a native function; gives the number of its
results. -/
def execute : Nat → Exec Nat
  | 0 => throw .outOfSteps
  | fuel + 1 => do
    if (← get).options.trace then trace
    let i ← fetch
    let outcome ← located do
      match ← step i with
      | .call func argc wanted =>
        callSlot fuel func argc wanted
        return .next
      | outcome => return outcome
    match outcome with
    | .finished count => return count
    | _ => execute fuel

/-- Calls the value in slot `func` with the `argc` values behind it, which are endless without a
count. A closure is only entered; the results of a native function are in place afterwards. -/
def callSlot : Nat → Nat → Option Nat → Option Nat → Exec Unit
  | 0, _, _, _ => throw .outOfSteps
  | fuel + 1, func, argc, wanted => do
    match ← slot func with
    | .closure r => enter r func argc wanted false
    | .native f =>
      guarded do
        match argc with
        | none => throw .outOfMemory
        | some n =>
          let args ← slots (func + 1) n
          raiseTop (func + 1 + n)
          let results ← runNative fuel f args.toList
          deliver results func wanted
    | v => raise (.called v.kind)

/-- Runs a native function to its end. -/
def runNative : Nat → Native → List Value → Exec (List Value)
  | 0, _, _ => throw .outOfSteps
  | fuel + 1, .base f, args => do
    let next ← f.run args
    interpret fuel next
  | fuel + 1, .host i, args => do
    match (← get).hosts[i]? with
    | some f => interpret fuel (f args)
    | none => throw .outOfRange

/-- Does what a native function asks for. -/
def interpret : Nat → NativeStep → Exec (List Value)
  | _, .done results => return results
  | _, .fail fault => throw fault
  | 0, _ => throw .outOfSteps
  | fuel + 1, .call callee args next => do
    let results ← call fuel callee args
    interpret fuel (next results)
  | fuel + 1, .protect callee args next => do
    let (ok, results) ← protectedCall fuel callee args
    interpret fuel (next ok results)

/-- Calls a function from a native function. -/
def call : Nat → Value → List Value → Exec (List Value)
  | 0, _, _ => throw .outOfSteps
  | fuel + 1, callee, args => do
    match callee with
    | .native f => guarded (runNative fuel f args)
    | .closure r =>
      guarded do
        let func := (← get).top
        ensureStack (func + 1 + args.length)
        setSlots func (callee :: args)
        setTop (func + 1 + args.length)
        enter r func (some args.length) none true
        let count ← execute fuel
        let results ← slots func count
        clearStack func (← get).top
        setTop func
        return results.toList
    | v => raise (.called v.kind)

/-- Calls a function and says whether that succeeded; the only result of a failed call is the error
value. -/
def protectedCall : Nat → Value → List Value → Exec (Bool × List Value)
  | 0, _, _ => throw .outOfSteps
  | fuel + 1, callee, args => do
    let m ← get
    let frameCount := m.frames.size
    let top := m.top
    tryCatch (do
      let results ← call fuel callee args
      return (true, results)) fun fault => do
        let v ← recover frameCount top fault
        return (false, [v])

end

/-- The number of steps that a run may take. -/
def stepBudget : Nat := 0x4000000000000000

/-- Runs a closure from outside. After every fault the machine is as it was before the call; an
error is a result, and a fault that a script cannot catch goes on. -/
def invoke (closure : Ref) (args : List Value) : Exec (Except Value (List Value)) := do
  let m ← get
  let frameCount := m.frames.size
  let top := m.top
  tryCatch (do
    let results ← call stepBudget (.closure closure) args
    return .ok results) fun fault => do
      match fault with
      | .script _ _ | .runtime _ | .outOfMemory =>
        return .error (← recover frameCount top fault)
      | fault =>
        unwind frameCount top
        throw fault

end Machine
end LuaMachine
