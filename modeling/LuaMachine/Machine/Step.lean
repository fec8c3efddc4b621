import LuaMachine.Arithmetic
import LuaMachine.Listing
import LuaMachine.Machine.Activation
import LuaMachine.NumericLoop
/-! # Instructions at work

What each instruction does to the machine. Registers are slots of the running frame's window. A
call is not made here: the step says what is to be called.

* `Machine.fetch`: the next instruction.
* `Machine.step`: what an instruction does.
-/
set_option autoImplicit false

namespace LuaMachine

/-- How a run goes on after an instruction: with the next one, with a call of the value in slot
`func`, or back in the native function that waits for `count` results. -/
inductive Outcome where
  | next
  | call (func : Nat) (argc wanted : Option Nat)
  | finished (count : Nat)
deriving DecidableEq, Repr

namespace Machine

/-! ## Registers and constants -/

def register (f : Frame) (i : Nat) : Exec Value := slot (f.base + i)

def setRegister (f : Frame) (i : Nat) (v : Value) : Exec Unit := setSlot (f.base + i) v

def constant (f : Frame) (i : Nat) : Exec Value :=
  match f.constants[i]? with
  | some v => return v
  | none => throw .outOfRange

/-- The number of values in the open list from a slot on. A list that ends before it begins has no
number and counts as endless. -/
def openCount (f : Frame) (start : Nat) : Option Nat :=
  if start ≤ f.open' then some (f.open' - start) else none

/-- The upvalue `i` of the running closure. -/
def ownUpvalue (f : Frame) (i : Nat) : Exec (Option Ref) := do
  match (← get).heap.closure? f.closure with
  | some c => return c.upvalue? i
  | none => throw (.defect "missing closure")

/-! ## Fetching -/

def fetch : Exec Instruction := do
  let f ← frame
  modifyFrame fun f => { f with next := f.next + 1 }
  match f.prototype.chunk.code[f.next]? with
  | some i => return i
  | none => throw .outOfRange

/-- A place in front of the first instruction, counted back from the end of all places. -/
def wrappedPlace (before : Nat) : Nat := 0xFFFFFFFFFFFFFFFF - before

def jump (offset : Int) : Exec Unit :=
  modifyFrame fun f => { f with
    next :=
      match (f.next : Int) + offset with
      | .ofNat n => n
      | .negSucc n => wrappedPlace n }

/-- Shows the window of registers and the next instruction. -/
def trace : Exec Unit := do
  let f ← frame
  let window := (← slots f.base f.prototype.registers).toList
  write ("          " ++ String.join (window.map fun v => "[ " ++ v.toText ++ " ]") ++ "\n"
    ++ f.prototype.chunk.listInstruction f.next)

/-! ## Operators -/

def arithmetic (op : Operator) (f : Frame) (i : Instruction) : Exec Outcome := do
  let x ← register f i.b
  let y ← register f i.c
  setRegister f i.a (← ofExcept (op.apply x y))
  return .next

def unary (op : Operator) (f : Frame) (i : Instruction) : Exec Outcome := do
  let x ← register f i.b
  setRegister f i.a (← ofExcept (op.apply x x))
  return .next

def compare (order : Value → Value → Except RuntimeError Bool) (f : Frame) (i : Instruction) :
    Exec Outcome := do
  let x ← register f i.b
  let y ← register f i.c
  setRegister f i.a (.bool (← ofExcept (order x y)))
  return .next

def length (v : Value) : Exec Value := do
  match v with
  | .str s => return .int (Int64.ofNat s.length)
  | .table r => return .int (Int64.ofNat ((← get).heap.table r).length)
  | v => raise (.measured v.kind)

/-- Texts and numbers one after the other. -/
def concatenation : List Value → String → Except RuntimeError String
  | [], text => .ok text
  | v :: rest, text =>
    match v with
    | .str s => concatenation rest (text ++ s)
    | .int _ => concatenation rest (text ++ v.toText)
    | .float _ => concatenation rest (text ++ v.toText)
    | v => .error (.concatenated v.kind)

/-! ## Tables and closures -/

/-- Stores `n` consecutive slots under consecutive keys. -/
def setItems (r : Ref) : Nat → Nat → Nat → Exec Unit
  | 0, _, _ => return
  | n + 1, source, key => do
    let v ← slot source
    modifyHeap fun h => h.modifyTable r fun t => t.setInt (Int64.ofNat key) v
    setItems r n (source + 1) (key + 1)

def setList (f : Frame) (i : Instruction) : Exec Outcome := do
  let place := f.base + i.a
  let count := if i.b = 0 then (openCount f (place + 1)).getD 0 else i.b
  let extra ← fetch
  match extra.opcode?, ← slot place with
  | some .extra, .table r =>
    setItems r count (place + 1) (extra.ax + 1)
    return .next
  | _, _ => throw (.defect "malformed SETLIST")

def fillUpvalue (r : Ref) (i : Nat) (u : Option Ref) : Exec Unit := do
  match (← get).heap.closure? r with
  | none => throw (.defect "missing closure")
  | some c =>
    match c.setUpvalue i u with
    | .ok c => modifyHeap fun h => h.setClosure r c
    | .error e => throw e

/-- Fills the upvalues of a new closure from the one with number `i` on. -/
def fillUpvalues (f : Frame) (r : Ref) : Nat → List UpvalueSource → Exec Unit
  | _, [] => return
  | i, source :: rest => do
    let u ←
      if source.fromRegister then some <$> capture (f.base + source.index)
      else ownUpvalue f source.index
    fillUpvalue r i u
    fillUpvalues f r (i + 1) rest

/-- The closure is in its register before its upvalues are made, so a collection finds it. -/
def makeClosure (f : Frame) (i : Instruction) : Exec Outcome := do
  match f.prototype.children[i.bx]? with
  | none => throw .outOfRange
  | some child =>
    let r ← allocate (.closure (Closure.create (f.id.child i.bx) child))
    setRegister f i.a (.closure r)
    fillUpvalues f r 0 child.upvalues.toList
    return .next

/-! ## Extra arguments -/

def vararg (f : Frame) (i : Instruction) : Exec Outcome := do
  let place := f.base + i.a
  if i.c = 0 then
    let stop := place + f.extra.size
    ensureStack stop
    setSlots place f.extra.toList
    modifyFrame fun f => { f with open' := stop }
    raiseTop stop
  else
    setSlots place ((List.range (i.c - 1)).map fun k => f.extra.getD k .nil)
  return .next

/-! ## Loops -/

def setLoop (f : Frame) (a : Nat) (l : NumericLoop) : Exec Unit :=
  setSlots (f.base + a) [l.control, l.limit, l.step, l.control]

def forPrepare (f : Frame) (i : Instruction) : Exec Outcome := do
  let initial ← register f i.a
  let limit ← register f (i.a + 1)
  let step ← register f (i.a + 2)
  match ← ofExcept (NumericLoop.start initial limit step) with
  | some l => setLoop f i.a l
  | none => jump (i.signedBx + 1)
  return .next

def forLoop (f : Frame) (i : Instruction) : Exec Outcome := do
  let l : NumericLoop :=
    ⟨← register f i.a, ← register f (i.a + 1), ← register f (i.a + 2)⟩
  match l.next with
  | some l =>
    setLoop f i.a l
    jump i.signedBx
  | none => pure ()
  return .next

def iterLoop (f : Frame) (i : Instruction) : Exec Outcome := do
  let v ← register f (i.a + 3)
  if !v.isNil then
    setRegister f (i.a + 2) v
    jump i.signedBx
  return .next

/-! ## One instruction -/

/-- What an instruction does when `f` is the innermost frame. An unknown operation does nothing. -/
def perform (f : Frame) (i : Instruction) : Exec Outcome := do
  match i.opcode? with
  | none => return .next
  | some op =>
    match op with
    | .move =>
      setRegister f i.a (← register f i.b)
      return .next
    | .loadConstant =>
      setRegister f i.a (← constant f i.bx)
      return .next
    | .loadBool =>
      setRegister f i.a (.bool (i.b != 0))
      return .next
    | .loadNil =>
      setSlots (f.base + i.a) (List.replicate i.b .nil)
      return .next
    | .getUpvalue =>
      setRegister f i.a (← readUpvalue (← ownUpvalue f i.b))
      return .next
    | .setUpvalue =>
      writeUpvalue (← ownUpvalue f i.b) (← register f i.a)
      return .next
    | .getGlobal =>
      let environment ← readUpvalue (← ownUpvalue f i.b)
      setRegister f i.a (← index environment (← constant f i.c))
      return .next
    | .setGlobal =>
      let environment ← readUpvalue (← ownUpvalue f i.a)
      setIndex environment (← constant f i.b) (← register f i.c)
      return .next
    | .getTable =>
      setRegister f i.a (← index (← register f i.b) (← register f i.c))
      return .next
    | .setTable =>
      setIndex (← register f i.a) (← register f i.b) (← register f i.c)
      return .next
    | .getField =>
      setRegister f i.a (← index (← register f i.b) (← constant f i.c))
      return .next
    | .setField =>
      setIndex (← register f i.a) (← constant f i.b) (← register f i.c)
      return .next
    | .newTable =>
      setRegister f i.a (← newTable)
      return .next
    | .setList => setList f i
    | .self =>
      let object ← register f i.b
      let method ← index object (← register f i.c)
      setRegister f (i.a + 1) object
      setRegister f i.a method
      return .next
    | .add => arithmetic .add f i
    | .sub => arithmetic .sub f i
    | .mul => arithmetic .mul f i
    | .div => arithmetic .div f i
    | .idiv => arithmetic .idiv f i
    | .mod => arithmetic .mod f i
    | .pow => arithmetic .pow f i
    | .band => arithmetic .band f i
    | .bor => arithmetic .bor f i
    | .bxor => arithmetic .bxor f i
    | .shl => arithmetic .shl f i
    | .shr => arithmetic .shr f i
    | .unm => unary .unm f i
    | .bnot => unary .bnot f i
    | .not =>
      setRegister f i.a (.bool (← register f i.b).isFalsey)
      return .next
    | .length =>
      setRegister f i.a (← length (← register f i.b))
      return .next
    | .concat =>
      let parts := (← slots (f.base + i.b) i.c).toList
      let text ← ofExcept (concatenation parts "")
      setRegister f i.a (← newText text)
      return .next
    | .equal => compare (fun x y => .ok (x.rawEq y)) f i
    | .less => compare lessThan f i
    | .lessEqual => compare lessEqual f i
    | .jump =>
      jump i.signedAx
      return .next
    | .test =>
      if (← register f i.a).isTruthy != (i.b != 0) then jump 1
      return .next
    | .call =>
      let func := f.base + i.a
      let argc := if i.b = 0 then openCount f (func + 1) else some (i.b - 1)
      return .call func argc (if i.c = 0 then none else some (i.c - 1))
    | .ret =>
      let source := f.base + i.a
      let count ← leave source (if i.b = 0 then openCount f source else some (i.b - 1))
      return if f.toHost then .finished count else .next
    | .close =>
      closeUpvalues (f.base + i.a)
      return .next
    | .closure => makeClosure f i
    | .vararg => vararg f i
    | .forPrepare => forPrepare f i
    | .forLoop => forLoop f i
    | .iterCall =>
      let func := f.base + i.a + 3
      copySlots 3 (f.base + i.a) func
      return .call func (some 2) (some i.c)
    | .iterLoop => iterLoop f i
    | .extra => throw (.defect "EXTRAARG executed on its own")

/-- Performs an instruction in the innermost frame. -/
def step (i : Instruction) : Exec Outcome := do
  perform (← frame) i

end Machine
end LuaMachine
