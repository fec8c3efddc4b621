import LuaMachine.Closure
import LuaMachine.Table
import Std.Data.HashMap
/-! # The heap

Tables, closures and upvalues live in the heap, where a reference is a place. A place is never
used again: a collected object leaves a dead place. Texts live in the heap too. A value that is a
text stands for the text object that the intern table has for its content.

* `Heap.allocate`, `Heap.intern`: new objects and texts.
* `Heap.table`, `Heap.closure`, `Heap.upvalue`: what lives at a place.
* `Heap.size`: an estimate of the memory in use.
-/
set_option autoImplicit false

namespace LuaMachine

inductive Object where
  | dead
  | table (t : Table)
  | closure (c : Closure)
  | upvalue (u : Upvalue)

instance : Inhabited Object := ⟨.dead⟩

/-- A text in the heap. No two text objects that a heap ever has are of one number. -/
structure TextObject where
  number : Nat
  content : String
deriving DecidableEq

/-- The places, those of living objects with the newest first, the text objects in this order too,
and the memory in use. -/
structure Heap where
  cells : Array Object := #[]
  living : List Ref := []
  strings : List TextObject := []
  /-- the intern table: the number of the text object for a content -/
  texts : Std.HashMap String Nat := {}
  /-- how many text objects there have been -/
  made : Nat := 0
  bytes : Nat := 0

namespace Heap

/-! ## Sizes

An object has a head and the room for what it holds. An array has room for a power of two of its
items, since it doubles when it is full. -/

/-- The memory of a text without its characters. -/
def textHead : Nat := 64

/-- Short texts take no more room than those of fifteen characters. -/
def textSize (s : String) : Nat := textHead + max 15 s.length + 1

def headSize : Object → Nat
  | .dead => 0
  | .table _ => 144
  | .closure _ => 64
  | .upvalue _ => 56

/-- The number of items that an array of `n` items has room for. -/
def room (n : Nat) : Nat := if n = 0 then 0 else n.nextPowerOfTwo

def contentSize : Object → Nat
  | .dead => 0
  | .table t => 16 * room t.array.size + 32 * room t.nodes.size + 40 * t.index.size
  | .closure c => 8 * c.upvalues.size
  | .upvalue _ => 0

def objectSize (o : Object) : Nat := headSize o + contentSize o

def objectCount (h : Heap) : Nat := h.living.length + h.strings.length

/-! ## Access -/

def table (h : Heap) (r : Ref) : Table :=
  match h.cells[r]? with
  | some (.table t) => t
  | _ => {}

def closure? (h : Heap) (r : Ref) : Option Closure :=
  match h.cells[r]? with
  | some (.closure c) => some c
  | _ => none

def upvalue? (h : Heap) (r : Ref) : Option Upvalue :=
  match h.cells[r]? with
  | some (.upvalue u) => some u
  | _ => none

def modifyTable (h : Heap) (r : Ref) (f : Table → Table) : Heap :=
  { h with cells := h.cells.modify r fun
      | .table t => .table (f t)
      | o => o }

def setClosure (h : Heap) (r : Ref) (c : Closure) : Heap :=
  { h with cells := h.cells.setIfInBounds r (.closure c) }

def setUpvalue (h : Heap) (r : Ref) (u : Upvalue) : Heap :=
  { h with cells := h.cells.setIfInBounds r (.upvalue u) }

/-- There is a living object at the place. -/
def isLiving (h : Heap) (r : Ref) : Bool :=
  match h.cells[r]? with
  | none => false
  | some .dead => false
  | some _ => true

/-- The object that a value refers to is still there; other values are always there. -/
def holds (h : Heap) : Value → Bool
  | .str s => h.texts.contains s
  | .table r => h.isLiving r
  | .closure r => h.isLiving r
  | _ => true

/-! ## Allocation -/

/-- A new object at a new place. -/
def allocate (h : Heap) (o : Object) : Heap × Ref :=
  let r := h.cells.size
  ({ h with
      cells := h.cells.push o
      living := r :: h.living
      bytes := h.bytes + objectSize o }, r)

/-- A new text object, which the intern table has from then on for its content. -/
def addText (h : Heap) (s : String) : Heap :=
  { h with
    strings := ⟨h.made, s⟩ :: h.strings
    texts := h.texts.insert s h.made
    made := h.made + 1
    bytes := h.bytes + textSize s }

end Heap
end LuaMachine
