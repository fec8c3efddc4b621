import LuaMachine.Heap
import Std.Data.HashMap
import Std.Data.HashSet
/-! # Garbage collection

A collection marks what can be reached from the roots and drops everything else. Tables lead to
their keys and values, closures to their upvalues and to the constants of their prototype, closed
upvalues to their value. An open upvalue leads nowhere, since its slot is a root.

* `Heap.Roots`: where marking begins.
* `Heap.collect`: the heap and the pools of constants after a collection.
-/
set_option autoImplicit false

namespace LuaMachine

/-- The constants of prototypes as values. -/
abbrev Pools := Std.HashMap PrototypeId (Array Value)

namespace Heap

/-- Values and places that are in use. -/
structure Roots where
  values : List Value
  places : List Ref

/-- What is marked so far, and the places whose object is still to be looked at. -/
structure Marking where
  marked : Array Bool
  gray : List Ref := []
  texts : Std.HashSet String := {}
  pools : Std.HashSet PrototypeId := {}

namespace Marking

def place (m : Marking) (r : Ref) : Marking :=
  if m.marked.getD r true then m
  else { m with marked := m.marked.setIfInBounds r true, gray := r :: m.gray }

def value (m : Marking) : Value → Marking
  | .str s => { m with texts := m.texts.insert s }
  | .table r => m.place r
  | .closure r => m.place r
  | _ => m

def values (m : Marking) (vs : Array Value) : Marking := vs.foldl value m

def node (m : Marking) (n : Node) : Marking :=
  match n.key with
  | some k => (m.value k.value).value n.value
  | none => m.value n.value

def pool (m : Marking) (pools : Pools) (id : PrototypeId) : Marking :=
  if m.pools.contains id then m
  else
    match pools[id]? with
    | some vs => { m with pools := m.pools.insert id }.values vs
    | none => m

/-- Marks what an object leads to. -/
def object (m : Marking) (pools : Pools) : Object → Marking
  | .dead => m
  | .table t => t.nodes.foldl node (m.values t.array)
  | .closure c =>
    (c.upvalues.foldl
      (fun m u =>
        match u with
        | some r => m.place r
        | none => m) m).pool pools c.id
  | .upvalue (.opened _) => m
  | .upvalue (.closed v) => m.value v

/-- Looks at the gray places one by one. Each place is gray at most once, so there are no more
steps than places. -/
def trace (cells : Array Object) (pools : Pools) : Nat → Marking → Marking
  | 0, m => m
  | fuel + 1, m =>
    match m.gray with
    | [] => m
    | r :: rest =>
      trace cells pools fuel (({ m with gray := rest }).object pools (cells.getD r .dead))

end Marking

/-- Everything that can be reached from the roots. -/
def mark (h : Heap) (pools : Pools) (roots : Roots) : Marking :=
  let start : Marking := { marked := Array.replicate h.cells.size false }
  let start := roots.values.foldl Marking.value start
  let start := roots.places.foldl Marking.place start
  start.trace h.cells pools h.cells.size

/-- A text object is marked if a value that is marked stands for it. -/
def marksText (h : Heap) (m : Marking) (o : TextObject) : Bool :=
  m.texts.contains o.content && h.texts[o.content]? == some o.number

/-- Drops the objects that are not marked, and counts the memory of the others anew. The intern
table loses the text objects that go. -/
def sweep (h : Heap) (m : Marking) : Heap :=
  let texts := h.texts.filter fun s n => h.marksText m ⟨n, s⟩
  let strings := h.strings.filter fun o => h.marksText m o
  let kept := h.living.filter fun r => m.marked.getD r false
  let dropped := h.living.filter fun r => !m.marked.getD r false
  let cells := dropped.foldl (fun cells r => cells.setIfInBounds r .dead) h.cells
  let bytes := kept.foldl (fun n r => n + objectSize (cells.getD r .dead)) 0
  { cells := cells
    living := kept
    strings := strings
    texts := texts
    made := h.made
    bytes := strings.foldl (fun n o => n + textSize o.content) bytes }

def collect (h : Heap) (pools : Pools) (roots : Roots) : Heap × Pools :=
  let m := h.mark pools roots
  (h.sweep m, pools.filter fun id _ => m.pools.contains id)

end Heap
end LuaMachine
