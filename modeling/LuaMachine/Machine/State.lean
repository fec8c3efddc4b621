import LuaMachine.Heap.Collection
/-! # The state of a machine

A machine has a heap, a table of globals, a stack of values and a list of frames, one for each
running closure. A frame's registers are a window of the stack. Slots of the stack from `top` on
hold nil.

* `Options`, `Frame`, `Machine`: the state.
* `NativeStep`: what a native function does, as seen from the machine.
* `Exec`: computations on a machine that may stop with a fault.
* Allocation, collection, upvalues and the stack.
-/
set_option autoImplicit false

namespace LuaMachine

/-! ## Native functions -/

/-- What a native function does next: it ends with results or a fault, or it calls a function and
goes on with what that gives. A protected call also gives whether the call succeeded. -/
inductive NativeStep where
  | done (results : List Value)
  | fail (fault : Fault)
  | call (callee : Value) (args : List Value) (next : List Value → NativeStep)
  | protect (callee : Value) (args : List Value) (next : Bool → List Value → NativeStep)

/-- A function that the embedder supplies. -/
abbrev HostFunction := List Value → NativeStep

/-! ## State -/

structure Options where
  initialThreshold : Nat := 1024 * 1024
  minimumThreshold : Nat := 1024 * 1024
  growth : Nat := 2
  maxFrames : Nat := 10000
  maxSlots : Nat := 1000000
  maxNativeDepth : Nat := 200
  /-- show every instruction -/
  trace : Bool := false
  /-- report every collection on the output -/
  logCollections : Bool := false
  /-- report every collection among the errors -/
  verbose : Bool := false
  /-- collect at every allocation -/
  stress : Bool := false

/-- A running closure: its first register and the next instruction; where its results go and how
many are wanted (all if none is given); the end of an open list of values; the arguments beyond
its parameters; and whether a native function waits for it. -/
structure Frame where
  closure : Ref
  id : PrototypeId
  prototype : Prototype
  constants : Array Value
  base : Nat
  next : Nat
  destination : Nat
  wanted : Option Nat
  open' : Nat
  extra : Array Value
  toHost : Bool

instance : Inhabited Frame := ⟨⟨0, default, default, #[], 0, 0, 0, none, 0, #[], false⟩⟩

/-- Frames with the innermost last; open upvalues with their slots, the highest slot first; pinned
values with the newest first. -/
structure Machine where
  options : Options
  hosts : Array HostFunction
  heap : Heap := {}
  stack : Array Value := #[]
  top : Nat := 0
  frames : Array Frame := #[]
  openUpvalues : List (Nat × Ref) := []
  nativeDepth : Nat := 0
  globals : Ref := 0
  pinned : List Value := []
  pools : Pools := {}
  /-- the constants of the pool that is being filled -/
  filling : Array Value := #[]
  programs : Nat := 0
  threshold : Nat
  collections : Nat := 0
  output : String := ""
  errors : String := ""

abbrev Exec := EStateM Fault Machine

namespace Machine

def outOfMemoryText : String := "not enough memory"

def raise {α : Type} (e : RuntimeError) : Exec α := throw (.runtime e)

def ofExcept {α : Type} : Except RuntimeError α → Exec α
  | .ok a => return a
  | .error e => raise e

def write (s : String) : Exec Unit := modify fun m => { m with output := m.output ++ s }

/-! ## Collection -/

def roots (m : Machine) : Heap.Roots :=
  { values :=
      (m.stack.extract 0 m.top).toList
        ++ m.frames.toList.flatMap (fun f => f.extra.toList)
        ++ .str outOfMemoryText :: m.filling.toList ++ m.pinned
    places :=
      m.frames.toList.map (fun f => f.closure)
        ++ m.openUpvalues.map (fun u => u.2) ++ [m.globals] }

def report (m : Machine) (before : Nat) : Machine :=
  let text :=
    "gc: cycle " ++ toString m.collections ++ " freed " ++ toString (before - m.heap.bytes)
      ++ " bytes, " ++ toString m.heap.bytes ++ " live, next at " ++ toString m.threshold ++ "\n"
  if m.options.logCollections then { m with output := m.output ++ "Info: " ++ text }
  else if m.options.verbose then { m with errors := m.errors ++ "Debug: " ++ text }
  else m

/-- Collects garbage. The next collection is due when the memory has grown by a factor. -/
def collect (m : Machine) : Machine :=
  let before := m.heap.bytes
  let (heap, pools) := m.heap.collect m.pools m.roots
  { m with
      heap := heap
      pools := pools
      collections := m.collections + 1
      threshold := max (heap.bytes * m.options.growth) m.options.minimumThreshold }.report before

/-- Collects garbage if it is due before an allocation. -/
def collectIfDue (m : Machine) (size : Nat) : Machine :=
  if m.options.stress || m.threshold < m.heap.bytes + size then m.collect else m

def collectGarbage : Exec Unit := modify collect

/-! ## Allocation -/

def allocate (o : Object) : Exec Ref := do
  modify fun m => m.collectIfDue (Heap.headSize o)
  modifyGet fun m =>
    let r := m.heap.cells.size
    (r, { m with heap := (m.heap.allocate o).1 })

/-- The text as a value; each content is in the heap once. -/
def newText (s : String) : Exec Value := do
  if !(← get).heap.texts.contains s then
    modify fun m => m.collectIfDue Heap.textHead
    modify fun m => { m with heap := m.heap.addText s }
  return .str s

def newTable : Exec Value := do
  return .table (← allocate (.table {}))

def modifyHeap (f : Heap → Heap) : Exec Unit := modify fun m => { m with heap := f m.heap }

/-! ## Tables -/

/-- The value of a key in a table; nothing else can be indexed. -/
def index (object key : Value) : Exec Value := do
  match object with
  | .table r => return ((← get).heap.table r).get key
  | v => raise (.indexed v.kind)

def setKey (r : Ref) (key value : Value) : Exec Unit := do
  match Table.assignable key with
  | .ok k => modifyHeap fun h => h.modifyTable r fun t => t.setKey k value
  | .error e => raise e

def setIndex (object key value : Value) : Exec Unit := do
  match object with
  | .table r => setKey r key value
  | v => raise (.indexed v.kind)

/-! ## The stack -/

def ensureStack (size : Nat) : Exec Unit := do
  if (← get).options.maxSlots < size then raise .stackOverflow
  modify fun m =>
    if m.stack.size < size then
      { m with stack := m.stack ++ Array.replicate (size - m.stack.size) .nil }
    else m

/-- Sets `n` slots to nil. -/
def fillNil : Nat → Nat → Array Value → Array Value
  | 0, _, stack => stack
  | n + 1, start, stack => fillNil n (start + 1) (stack.setIfInBounds start .nil)

def clearStack (start stop : Nat) : Exec Unit :=
  modify fun m => { m with stack := fillNil (min stop m.stack.size - start) start m.stack }

def slot (i : Nat) : Exec Value := do
  return (← get).stack.getD i .nil

def setSlot (i : Nat) (v : Value) : Exec Unit :=
  modify fun m => { m with stack := m.stack.setIfInBounds i v }

/-- Puts values into consecutive slots. -/
def setSlots : Nat → List Value → Exec Unit
  | _, [] => return
  | i, v :: rest => do
    setSlot i v
    setSlots (i + 1) rest

/-- Copies slots one by one, from the lowest on. -/
def copySlots : Nat → Nat → Nat → Exec Unit
  | 0, _, _ => return
  | n + 1, source, target => do
    setSlot target (← slot source)
    copySlots n (source + 1) (target + 1)

def slots (start count : Nat) : Exec (Array Value) := do
  return (← get).stack.extract start (start + count)

def setTop (top : Nat) : Exec Unit := modify fun m => { m with top := top }

def raiseTop (top : Nat) : Exec Unit := modify fun m => { m with top := max m.top top }

/-! ## Upvalues -/

/-- The open upvalue of a slot, which is new unless there is one already. -/
def capture (slot : Nat) : Exec Ref := do
  match (← get).openUpvalues.find? fun u => u.1 == slot with
  | some (_, r) => return r
  | none =>
    let r ← allocate (.upvalue (.opened slot))
    modify fun m =>
      let above := m.openUpvalues.takeWhile fun u => slot < u.1
      let below := m.openUpvalues.dropWhile fun u => slot < u.1
      { m with openUpvalues := above ++ (slot, r) :: below }
    return r

def closeAll : List (Nat × Ref) → Exec Unit
  | [] => return
  | (_, r) :: rest => do
    let m ← get
    match m.heap.upvalue? r with
    | some u =>
      match u.close m.stack with
      | .ok closed => modifyHeap fun h => h.setUpvalue r closed
      | .error e => throw e
    | none => throw (.defect "missing upvalue")
    modify fun m => { m with openUpvalues := m.openUpvalues.tail }
    closeAll rest

/-- Closes the open upvalues of a slot and all above it. -/
def closeUpvalues (lowest : Nat) : Exec Unit := do
  closeAll ((← get).openUpvalues.takeWhile fun u => lowest ≤ u.1)

def upvalue (u : Option Ref) : Exec (Ref × Upvalue) := do
  match u with
  | none => throw (.defect "missing upvalue")
  | some r =>
    match (← get).heap.upvalue? r with
    | some u => return (r, u)
    | none => throw (.defect "missing upvalue")

def readUpvalue (u : Option Ref) : Exec Value := do
  let (_, u) ← upvalue u
  return u.get (← get).stack

def writeUpvalue (u : Option Ref) (v : Value) : Exec Unit := do
  let (r, u) ← upvalue u
  match u with
  | .opened i => setSlot i v
  | .closed _ => modifyHeap fun h => h.setUpvalue r (.closed v)

/-! ## Positions -/

/-- The source and the line of the instruction that is executed. -/
def position (m : Machine) : String :=
  match m.frames.back? with
  | none => ""
  | some f =>
    let line : Int :=
      match f.prototype.chunk.line? (f.next - 1) with
      | some n => n
      | none => -1
    f.prototype.source ++ ":" ++ String.ofList (Numeral.writeInt line) ++ ": "

/-- The text of an error behind the position where it arose. -/
def positioned (e : RuntimeError) : Exec String := do
  let text := (← get).position ++ e.message
  let _ ← newText text
  return text

/-- Gives an error that arises in `x` its position. -/
@[inline] def located {α : Type} (x : Exec α) : Exec α :=
  tryCatch x fun
    | .runtime e => do
      let text ← positioned e
      throw (.script (.str text) text)
    | e => throw e

end Machine
end LuaMachine
