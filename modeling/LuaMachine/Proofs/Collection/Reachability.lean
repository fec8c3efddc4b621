import LuaMachine.Machine.State
/-! # What a heap leads to

A collection keeps or drops whole items: the object at a place, or a text. An object leads to the
items that it holds, and an item is reachable if the roots lead to it in any number of steps.

* `Heap.Item`, `Value.item?`: the items, and the one that a value stands for.
* `Heap.LeadsTo`, `Heap.Reachable`: the edges and the paths of the graph, with no marks in it.
* `Heap.Reachable.mem_of_closed`: a set that holds the roots and is closed under the edges holds all
  that is reachable.
* `Heap.Listed`: the list of living objects names each object of the heap once.
-/
set_option autoImplicit false

namespace LuaMachine

/-- The object at a place, or a text. -/
inductive Heap.Item where
  | place (r : Ref)
  | text (s : String)
deriving DecidableEq

/-- The item that a value stands for; numbers, truth values, nil and natives stand for none. -/
def Value.item? : Value → Option Heap.Item
  | .str s => some (.text s)
  | .table r => some (.place r)
  | .closure r => some (.place r)
  | _ => none

namespace Heap

/-! ## Edges and paths -/

/-- The items that an object leads to. A closure also leads to the constants of its prototype, if
they are made; an open upvalue leads nowhere. -/
inductive LeadsTo (pools : Pools) : Object → Item → Prop where
  | array {t : Table} {v : Value} {n : Item} :
      v ∈ t.array → v.item? = some n → LeadsTo pools (.table t) n
  | key {t : Table} {node : Node} {k : Key} {n : Item} :
      node ∈ t.nodes → node.key = some k → k.value.item? = some n → LeadsTo pools (.table t) n
  | node {t : Table} {node : Node} {n : Item} :
      node ∈ t.nodes → node.value.item? = some n → LeadsTo pools (.table t) n
  | upvalue {c : Closure} {r : Ref} :
      some r ∈ c.upvalues → LeadsTo pools (.closure c) (.place r)
  | constant {c : Closure} {vs : Array Value} {v : Value} {n : Item} :
      pools[c.id]? = some vs → v ∈ vs → v.item? = some n → LeadsTo pools (.closure c) n
  | closed {v : Value} {n : Item} : v.item? = some n → LeadsTo pools (.upvalue (.closed v)) n

/-- The items that the roots lead to. -/
inductive Reachable (h : Heap) (pools : Pools) (roots : Roots) : Item → Prop where
  | value {v : Value} {n : Item} :
      v ∈ roots.values → v.item? = some n → Reachable h pools roots n
  | place {r : Ref} : r ∈ roots.places → Reachable h pools roots (.place r)
  | step {r : Ref} {o : Object} {n : Item} :
      Reachable h pools roots (.place r) → h.cells[r]? = some o → LeadsTo pools o n →
      Reachable h pools roots n

variable {h : Heap} {pools : Pools} {roots : Roots}

theorem Reachable.mem_of_closed {S : Item → Prop}
    (hvalues : ∀ v ∈ roots.values, ∀ n, v.item? = some n → S n)
    (hplaces : ∀ r ∈ roots.places, S (.place r))
    (hclosed : ∀ r o n, S (.place r) → h.cells[r]? = some o → LeadsTo pools o n → S n)
    {n : Item} (hn : Reachable h pools roots n) : S n := by
  induction hn with
  | value hv hi => exact hvalues _ hv _ hi
  | place hr => exact hplaces _ hr
  | step _ ho hl ih => exact hclosed _ _ _ ih ho hl

/-- A constant pool belongs to a reachable closure. -/
def PoolInUse (h : Heap) (pools : Pools) (roots : Roots) (id : PrototypeId) : Prop :=
  ∃ r c, Reachable h pools roots (.place r) ∧ h.cells[r]? = some (.closure c) ∧ c.id = id

/-! ## The list of living objects -/

/-- The list of living objects names each place with an object once, and no other place. -/
structure Listed (h : Heap) : Prop where
  nodup : h.living.Nodup
  mem_iff : ∀ r, r ∈ h.living ↔ h.isLiving r = true

theorem isLiving_iff {h : Heap} {r : Ref} :
    h.isLiving r = true ↔ ∃ o, h.cells[r]? = some o ∧ o ≠ .dead := by
  unfold isLiving
  split
  · next hn => simp [hn]
  · next hd => simp [hd]
  · next o hd ho => exact ⟨fun _ => ⟨o, ho, hd⟩, fun _ => rfl⟩

end Heap
end LuaMachine
