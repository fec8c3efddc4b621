import LuaMachine.Fault
import Std.Data.HashMap
/-! # Tables

A table maps keys to values other than nil. The keys `1 .. n` live in an array without holes, all
others in a list of nodes in the order of insertion, with an index from each key to its node.
Removing a key leaves a node without a value behind (a tombstone), so a traversal can go on from
it; tombstones are purged when a new key arrives and they make up half of the nodes. When a hole
is made in the array, the keys behind it move to the nodes; up to `detached` they are still
traversed by index, before all other nodes.

* `Table.get`, `Table.set`: look-up and assignment; assigning nil removes.
* `Table.next`: the traversal.
* `Table.length`: the size of the array.
-/
set_option autoImplicit false

namespace LuaMachine

/-- An entry outside of the array; it has no key once it moved into the array. -/
structure Node where
  key : Option Key
  value : Value

structure Table where
  array : Array Value := #[]
  nodes : Array Node := #[]
  index : Std.HashMap Key Nat := {}
  tombstones : Nat := 0
  detached : Nat := 0

instance : Inhabited Table := ⟨{}⟩

namespace Table

def empty : Table := {}

def length (t : Table) : Nat := t.array.size

/-- The number of nodes that hold a value. -/
def liveNodes (t : Table) : Nat := t.nodes.size - t.tombstones

/-! ## Look-up -/

def getNode (t : Table) (k : Key) : Value :=
  match t.index[k]? with
  | some i =>
    match t.nodes[i]? with
    | some node => node.value
    | none => .nil
  | none => .nil

/-- The position in the array of an integer key, if it has one. -/
def slot? (t : Table) (i : Int64) : Option Nat :=
  if 1 ≤ i then
    let n := i.toUInt64.toNat
    if n ≤ t.array.size then some (n - 1) else none
  else none

def getInt (t : Table) (i : Int64) : Value :=
  match t.slot? i with
  | some n => t.array.getD n .nil
  | none => t.getNode (.int i)

def getKey (t : Table) : Key → Value
  | .int i => t.getInt i
  | k => t.getNode k

/-- The value of a key; nil where there is none, and for the two values that are no keys. -/
def get (t : Table) (k : Value) : Value :=
  match k with
  | .int i => t.getInt i
  | k =>
    match k.key? with
    | some key => t.getKey key
    | none => .nil

/-! ## Assignment -/

/-- Drops the nodes without a value, once there are at least eight of them and they make up half
of the nodes. -/
def purge (t : Table) : Table :=
  if t.tombstones < 8 || t.tombstones * 2 < t.nodes.size then t
  else
    let kept := t.nodes.filter fun node => !node.value.isNil
    let index := kept.foldl
      (fun (s : Std.HashMap Key Nat × Nat) node =>
        match node.key with
        | some k => (s.1.insert k s.2, s.2 + 1)
        | none => (s.1, s.2 + 1))
      (({} : Std.HashMap Key Nat), 0)
    { t with nodes := kept, index := index.1, tombstones := 0, detached := 0 }

/-- Assignment to a key that belongs to the nodes. -/
def setNode (t : Table) (k : Key) (v : Value) : Table :=
  match t.index[k]? with
  | some i =>
    let old := t.nodes.getD i ⟨none, .nil⟩
    let tombstones :=
      if old.value.isNil && !v.isNil then t.tombstones - 1
      else if !old.value.isNil && v.isNil then t.tombstones + 1
      else t.tombstones
    { t with
      tombstones := tombstones
      nodes := t.nodes.modify i fun node => { node with value := v } }
  | none =>
    if v.isNil then t
    else
      let t := t.purge
      { t with
        index := t.index.insert k t.nodes.size
        nodes := t.nodes.push ⟨some k, v⟩ }

/-- The greatest integer key; no array is longer. -/
def lastPosition : Nat := 0x7FFFFFFFFFFFFFFF

/-- Moves the nodes that continue the array into it, until one is missing or has no value. There
are no more steps than nodes. -/
def migrate : Nat → Table → Table
  | 0, t => t
  | fuel + 1, t =>
    if lastPosition ≤ t.array.size then t
    else
      let k := Key.int (Int64.ofNat (t.array.size + 1))
      match t.index[k]? with
      | none => t
      | some i =>
        let v := (t.nodes.getD i ⟨none, .nil⟩).value
        let t := { t with index := t.index.erase k }
        if v.isNil then
          { t with nodes := t.nodes.modify i fun node => { node with key := none } }
        else
          migrate fuel { t with
            nodes := t.nodes.modify i fun _ => ⟨none, .nil⟩
            array := t.array.push v
            tombstones := t.tombstones + 1 }

/-- Adds the key that follows the array. -/
def append (t : Table) (v : Value) : Table :=
  let t := { t with array := t.array.push v }
  let t := migrate t.nodes.size t
  if t.detached ≤ t.array.size then { t with detached := 0 } else t

/-- Makes a hole in the array: the array ends before it and the keys behind it become nodes. -/
def truncate (t : Table) (n : Nat) : Table :=
  let size := t.array.size
  let moved := (List.range' (n + 1) (size - (n + 1))).foldl
    (fun (s : Array Node × Std.HashMap Key Nat) i =>
      let k := Key.int (Int64.ofNat (i + 1))
      let position := s.1.size
      (s.1.push ⟨some k, t.array.getD i .nil⟩, s.2.insert k position))
    (t.nodes, t.index)
  { t with
    nodes := moved.1
    index := moved.2
    array := t.array.shrink n
    detached := max t.detached size }

def setInt (t : Table) (i : Int64) (v : Value) : Table :=
  match t.slot? i with
  | some n =>
    if v.isNil then t.truncate n
    else { t with array := t.array.setIfInBounds n v }
  | none =>
    if 1 ≤ i && i.toUInt64.toNat == t.array.size + 1 then
      if v.isNil then t else t.append v
    else t.setNode (.int i) v

def setKey (t : Table) (k : Key) (v : Value) : Table :=
  match k with
  | .int i => t.setInt i v
  | k => t.setNode k v

/-- The key that a value stands for in an assignment, or why it cannot be assigned to. -/
def assignable (k : Value) : Except RuntimeError Key :=
  match k.key? with
  | some key => .ok key
  | none => .error (if k.isNil then .nilKey else .nanKey)

def set (t : Table) (k v : Value) : Except RuntimeError Table :=
  (assignable k).map fun key => t.setKey key v

/-! ## Traversal -/

/-- The keys up to here are traversed by index. -/
def indexed (t : Table) : Nat := max t.array.size t.detached

/-- The first key after `i` that is traversed by index and has a value, in `n` steps. -/
def nextIndexed (t : Table) : Nat → Nat → Option (Value × Value)
  | 0, _ => none
  | n + 1, i =>
    let k := Int64.ofNat (i + 1)
    let v := t.getInt k
    if v.isNil then nextIndexed t n (i + 1) else some (.int k, v)

/-- The node was traversed by index. -/
def wasIndexed (t : Table) : Key → Bool
  | .int i => 1 ≤ i && i.toUInt64.toNat ≤ t.detached
  | _ => false

/-- The first node from `i` on that has a value and was not traversed by index, in `n` steps. -/
def nextNode (t : Table) : Nat → Nat → Option (Value × Value)
  | 0, _ => none
  | n + 1, i =>
    match t.nodes[i]? with
    | none => none
    | some node =>
      match node.key with
      | none => nextNode t n (i + 1)
      | some k =>
        if node.value.isNil || t.wasIndexed k then nextNode t n (i + 1)
        else some (k.value, node.value)

/-- The entry that follows a key that is traversed by index, or the start. -/
def after (t : Table) (i : Nat) : Option (Value × Value) :=
  match t.nextIndexed (t.indexed - i) i with
  | some entry => some entry
  | none => t.nextNode t.nodes.size 0

/-- The entry that follows the given key; nil starts the traversal. -/
def next (t : Table) (k : Value) : Except RuntimeError (Option (Value × Value)) :=
  match k with
  | .nil => .ok (t.after 0)
  | k =>
    match k.key? with
    | none => .error .unknownKey
    | some key =>
      let byIndex : Option Nat :=
        match key with
        | .int i =>
          if 1 ≤ i && i.toUInt64.toNat ≤ t.indexed then some i.toUInt64.toNat else none
        | _ => none
      match byIndex with
      | some i => .ok (t.after i)
      | none =>
        match t.index[key]? with
        | some position => .ok (t.nextNode (t.nodes.size - (position + 1)) (position + 1))
        | none => .error .unknownKey

end Table
end LuaMachine
