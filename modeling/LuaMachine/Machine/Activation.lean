import LuaMachine.Machine.State
/-! # Entering and leaving functions

A call pushes a frame whose window begins behind the slot of the function, and a return pops it and
moves the results down to that slot. After a fault all frames of the failed call are dropped at once.

* `Machine.constants`: the constants of a prototype as values.
* `Machine.enter`, `Machine.leave`: a call and a return.
* `Machine.unwind`: back to an earlier number of frames and an earlier top of the stack.
* `Machine.guarded`: the bound on how deep native functions may be nested.
-/
set_option autoImplicit false

namespace LuaMachine
namespace Machine

/-! ## Constants -/

def fillPool : List Constant → Exec Unit
  | [] => return
  | k :: rest => do
    let v ←
      match k with
      | .str s => newText s
      | k => pure k.value
    modify fun m => { m with filling := m.filling.push v }
    fillPool rest

/-- The constants of a closure's prototype, which are made at its first call. -/
def constants (c : Closure) : Exec (Array Value) := do
  match (← get).pools[c.id]? with
  | some values => return values
  | none =>
    fillPool c.prototype.chunk.constants.toList
    modifyGet fun m =>
      (m.filling, { m with filling := #[], pools := m.pools.insert c.id m.filling })

/-! ## Frames -/

/-- The innermost frame. -/
def frame : Exec Frame := do
  match (← get).frames.back? with
  | some f => return f
  | none => throw (.defect "no frame")

/-- Changes the innermost frame. -/
def modifyFrame (f : Frame → Frame) : Exec Unit :=
  modify fun m => { m with frames := m.frames.modify (m.frames.size - 1) f }

/-- Calls the closure in slot `func` with the `argc` values behind it. Its parameters are the first
of these, and its other registers are nil; further values are kept if it is variadic. Without a
count the values are endless: there are enough for the parameters, and too many to keep. -/
def enter (closure : Ref) (func : Nat) (argc wanted : Option Nat) (toHost : Bool) :
    Exec Unit := do
  let m ← get
  if m.options.maxFrames ≤ m.frames.size then raise .stackOverflow
  match m.heap.closure? closure with
  | none => throw (.defect "missing closure")
  | some c =>
    let p := c.prototype
    let base := func + 1
    let windowEnd := base + p.registers
    ensureStack (max windowEnd (base + argc.getD 0))
    let pool ← constants c
    let extra ←
      if p.variadic then
        match argc with
        | some n => slots (base + p.params) (n - p.params)
        | none => throw .outOfMemory
      else pure #[]
    let given := argc.getD p.params
    clearStack (base + p.params) (base + given)
    clearStack (base + min given p.params) windowEnd
    modify fun m => { m with
      frames := m.frames.push
        { closure := closure, id := c.id, prototype := p, constants := pool, base := base
          next := 0, destination := func, wanted := wanted, open' := base, extra := extra
          toHost := toHost }
      top := max m.top windowEnd }

/-- Returns `count` values from slot `source` on: as many as are wanted, with nil for those that
are missing. Gives the number of values that are left at the destination. Without a count the
values are endless, so none is missing, but the stack cannot hold them all. -/
def leave (source : Nat) (count : Option Nat) : Exec Nat := do
  let f ← frame
  closeUpvalues f.base
  match f.wanted.or count with
  | none => raise .stackOverflow
  | some n =>
    let given := count.getD n
    let stop := f.destination + n
    ensureStack stop
    copySlots (min n given) source f.destination
    clearStack (f.destination + given) stop
    clearStack stop (← get).top
    modify fun m => { m with frames := m.frames.pop }
    match (← get).frames.back? with
    | none => setTop stop
    | some caller =>
      if f.toHost then setTop stop
      else
        if f.wanted.isNone then modifyFrame fun g => { g with open' := stop }
        setTop (max stop (caller.base + caller.prototype.registers))
    return n

def unwind (frameCount top : Nat) : Exec Unit := do
  closeUpvalues top
  modify fun m => { m with frames := m.frames.shrink frameCount }
  clearStack top (← get).top
  setTop top

/-! ## Native functions -/

/-- Runs `x` one level deeper, unless that is too deep. -/
def guarded {α : Type} (x : Exec α) : Exec α := do
  let m ← get
  if m.options.maxNativeDepth ≤ m.nativeDepth then raise .nativeOverflow
  modify fun m => { m with nativeDepth := m.nativeDepth + 1 }
  let result ← tryCatch x fun fault => do
    modify fun m => { m with nativeDepth := m.nativeDepth - 1 }
    throw fault
  modify fun m => { m with nativeDepth := m.nativeDepth - 1 }
  return result

/-- Writes the results of a native function from slot `func` on: as many as are wanted, with nil
for those that are missing. -/
def deliver (results : List Value) (func : Nat) (wanted : Option Nat) : Exec Unit := do
  let count := wanted.getD results.length
  ensureStack (func + count)
  setSlots func (results.take count)
  clearStack (func + results.length) (func + count)
  if wanted.isNone then modifyFrame fun f => { f with open' := func + count }
  raiseTop (func + count)

end Machine
end LuaMachine
