import LuaMachine.Table
/-! # What a table holds

Whatever holds of all values that are put into a table holds of all values that come out of it, be
it by a look-up or in a traversal.

* `Table.Holds`: a property of all keys and values of a table.
* `Table.Holds.setKey`, `Table.Holds.get`, `Table.Holds.next`: assignment, look-up, traversal.
-/
set_option autoImplicit false

namespace LuaMachine

/-- A value that refers to nothing in the heap. -/
def Value.Plain : Value → Prop
  | .str _ | .table _ | .closure _ => False
  | _ => True

namespace Table

/-- All keys and values of the table have the property. -/
structure Holds (P : Value → Prop) (t : Table) : Prop where
  array : ∀ v ∈ t.array, P v
  keys : ∀ node ∈ t.nodes, ∀ k, node.key = some k → P k.value
  nodes : ∀ node ∈ t.nodes, P node.value

variable {P : Value → Prop} {t : Table}

theorem Holds.mono {P' : Value → Prop} (h : t.Holds P) (hP : ∀ v, P v → P' v) : t.Holds P' where
  array v hv := hP v (h.array v hv)
  keys node hn k hk := hP _ (h.keys node hn k hk)
  nodes node hn := hP _ (h.nodes node hn)

theorem Holds.empty : Holds P {} where
  array _ hv := by cases Array.not_mem_empty _ hv
  keys _ hn := by cases Array.not_mem_empty _ hn
  nodes _ hn := by cases Array.not_mem_empty _ hn

/-! ## Look-up -/

theorem holds_getD {P : Value → Prop} {xs : Array Value} (h : ∀ v ∈ xs, P v) (hnil : P .nil)
    (i : Nat) : P (xs.getD i .nil) := by
  rw [Array.getD_eq_getD_getElem?]
  cases hx : xs[i]? with
  | none => exact hnil
  | some v => exact h v (Array.mem_of_getElem? hx)

theorem Holds.getNode (h : t.Holds P) (hnil : P .nil) (k : Key) : P (t.getNode k) := by
  unfold Table.getNode
  split
  next i _ =>
    split
    next node hnode => exact h.nodes node (Array.mem_of_getElem? hnode)
    next => exact hnil
  next => exact hnil

theorem Holds.getInt (h : t.Holds P) (hnil : P .nil) (i : Int64) : P (t.getInt i) := by
  unfold Table.getInt
  split
  next n _ => exact holds_getD h.array hnil n
  next => exact h.getNode hnil _

theorem Holds.getKey (h : t.Holds P) (hnil : P .nil) (k : Key) : P (t.getKey k) := by
  unfold Table.getKey
  split
  next i => exact h.getInt hnil i
  next => exact h.getNode hnil k

theorem Holds.get (h : t.Holds P) (hnil : P .nil) (k : Value) : P (t.get k) := by
  unfold Table.get
  split
  next i => exact h.getInt hnil i
  next =>
    split
    next key _ => exact h.getKey hnil key
    next => exact hnil

/-! ## Assignment -/

theorem holds_push {P : Value → Prop} {xs : Array Value} {v : Value} (h : ∀ v ∈ xs, P v)
    (hv : P v) : ∀ w ∈ xs.push v, P w := by
  intro w hw
  rcases Array.mem_push.mp hw with hw | rfl
  · exact h w hw
  · exact hv

theorem Holds.purge (h : t.Holds P) : t.purge.Holds P := by
  unfold Table.purge
  split
  next => exact h
  next =>
    refine ⟨h.array, fun node hn => ?_, fun node hn => ?_⟩
    · exact h.keys node (Array.mem_filter.mp hn).1
    · exact h.nodes node (Array.mem_filter.mp hn).1

/-- A new node. -/
theorem Holds.push (h : t.Holds P) {k : Key} {v : Value} (hk : P k.value) (hv : P v)
    {nodes : Array Node} (hnodes : nodes = t.nodes.push ⟨some k, v⟩) {t' : Table}
    (hnodes' : t'.nodes = nodes) (harray : t'.array = t.array) : t'.Holds P := by
  subst hnodes
  refine ⟨harray ▸ h.array, fun node hn k' hk' => ?_, fun node hn => ?_⟩
  · rcases Array.mem_push.mp (hnodes' ▸ hn) with hn | rfl
    · exact h.keys node hn k' hk'
    · cases hk'
      exact hk
  · rcases Array.mem_push.mp (hnodes' ▸ hn) with hn | rfl
    · exact h.nodes node hn
    · exact hv

theorem mem_modify {α : Type} {xs : Array α} {i : Nat} {f : α → α} {x : α}
    (hx : x ∈ xs.modify i f) : x ∈ xs ∨ ∃ y ∈ xs, x = f y := by
  obtain ⟨j, hj⟩ := Array.mem_iff_getElem?.mp hx
  rw [Array.getElem?_modify] at hj
  split at hj
  · obtain ⟨y, hy, rfl⟩ := Option.map_eq_some_iff.mp hj
    exact .inr ⟨y, Array.mem_of_getElem? hy, rfl⟩
  · exact .inl (Array.mem_of_getElem? hj)

/-- A node is changed: its key stays or goes, and its new value has the property. -/
theorem Holds.modify (h : t.Holds P) (i : Nat) (f : Node → Node) {t' : Table}
    (hnodes : t'.nodes = t.nodes.modify i f) (harray : ∀ v ∈ t'.array, P v)
    (hkey : ∀ node k, (f node).key = some k → node.key = some k)
    (hvalue : ∀ node ∈ t.nodes, P (f node).value) : t'.Holds P := by
  refine ⟨harray, fun node hn k hk => ?_, fun node hn => ?_⟩
  · rcases mem_modify (hnodes ▸ hn) with hn | ⟨old, hold, rfl⟩
    · exact h.keys node hn k hk
    · exact h.keys old hold k (hkey old k hk)
  · rcases mem_modify (hnodes ▸ hn) with hn | ⟨old, hold, rfl⟩
    · exact h.nodes node hn
    · exact hvalue old hold

theorem Holds.setNode (h : t.Holds P) {k : Key} {v : Value} (hk : P k.value) (hv : P v) :
    (t.setNode k v).Holds P := by
  unfold Table.setNode
  split
  next i _ =>
    exact h.modify i (fun node => { node with value := v }) rfl h.array (fun _ _ hk => hk)
      fun _ _ => hv
  next =>
    split
    next => exact h
    next => exact h.purge.push hk hv rfl rfl rfl

theorem Holds.migrate (hnil : P .nil) (fuel : Nat) :
    ∀ {t : Table}, t.Holds P → (t.migrate fuel).Holds P := by
  induction fuel with
  | zero => exact fun h => h
  | succ fuel ih =>
    intro t h
    rw [Table.migrate]
    dsimp only
    split
    next => exact h
    next =>
      split
      next => exact h
      next i _ =>
        have hv : P (t.nodes.getD i ⟨none, .nil⟩).value := by
          rw [Array.getD_eq_getD_getElem?]
          cases hn : t.nodes[i]? with
          | none => exact hnil
          | some node => exact h.nodes node (Array.mem_of_getElem? hn)
        split
        next =>
          exact h.modify i (fun node => { node with key := none }) rfl h.array
            (fun _ _ hk => by cases hk) h.nodes
        next =>
          exact ih (h.modify i (fun _ => ⟨none, .nil⟩) rfl (holds_push h.array hv)
            (fun _ _ hk => by cases hk) fun _ _ => hnil)

theorem Holds.append (h : t.Holds P) (hnil : P .nil) {v : Value} (hv : P v) :
    (t.append v).Holds P := by
  have hpush : Holds P { t with array := t.array.push v } :=
    ⟨holds_push h.array hv, h.keys, h.nodes⟩
  have hmoved := hpush.migrate hnil t.nodes.size
  unfold Table.append
  dsimp only
  split
  next => exact ⟨hmoved.array, hmoved.keys, hmoved.nodes⟩
  next => exact hmoved

/-- The nodes that `truncate` makes: the old ones and those of the keys behind the hole. -/
theorem mem_foldl_push {α β : Type} (f : α → Node) (g : α → Array Node → β → β) (xs : List α)
    (s : Array Node × β) {node : Node}
    (hn : node ∈ (xs.foldl (fun s x => (s.1.push (f x), g x s.1 s.2)) s).1) :
    node ∈ s.1 ∨ ∃ x ∈ xs, node = f x := by
  induction xs generalizing s with
  | nil => exact .inl hn
  | cons x xs ih =>
    rcases ih _ hn with hn | ⟨y, hy, rfl⟩
    · rcases Array.mem_push.mp hn with hn | rfl
      · exact .inl hn
      · exact .inr ⟨x, List.mem_cons_self, rfl⟩
    · exact .inr ⟨y, List.mem_cons_of_mem x hy, rfl⟩

theorem Holds.truncate (h : t.Holds P) (hplain : ∀ v : Value, v.Plain → P v) (n : Nat) :
    (t.truncate n).Holds P := by
  have hnodes : ∀ node ∈ (t.truncate n).nodes,
      node ∈ t.nodes ∨ ∃ i : Nat, node = ⟨some (.int (Int64.ofNat (i + 1))), t.array.getD i .nil⟩ := by
    intro node hn
    rcases mem_foldl_push
      (fun i : Nat => ⟨some (.int (Int64.ofNat (i + 1))), t.array.getD i .nil⟩)
      (fun i nodes (index : Std.HashMap Key Nat) =>
        index.insert (Key.int (Int64.ofNat (i + 1))) nodes.size)
      (List.range' (n + 1) (t.array.size - (n + 1))) (t.nodes, t.index) hn
      with hn | ⟨i, -, rfl⟩
    · exact .inl hn
    · exact .inr ⟨i, rfl⟩
  refine ⟨fun v hv => ?_, fun node hn k hk => ?_, fun node hn => ?_⟩
  · refine h.array v (Array.mem_toList_iff.mp (List.mem_of_mem_take (i := n) ?_))
    rw [← Array.toList_shrink]
    exact Array.mem_toList_iff.mpr hv
  · rcases hnodes node hn with hn | ⟨i, rfl⟩
    · exact h.keys node hn k hk
    · cases hk
      exact hplain _ trivial
  · rcases hnodes node hn with hn | ⟨i, rfl⟩
    · exact h.nodes node hn
    · exact holds_getD h.array (hplain _ trivial) i

variable (hplain : ∀ v : Value, v.Plain → P v)
include hplain

theorem Holds.setInt (h : t.Holds P) (i : Int64) {v : Value} (hv : P v) :
    (t.setInt i v).Holds P := by
  unfold Table.setInt
  split
  next n _ =>
    split
    next => exact h.truncate hplain n
    next =>
      refine ⟨fun w hw => ?_, h.keys, h.nodes⟩
      rcases Array.mem_or_eq_of_mem_setIfInBounds hw with hw | rfl
      · exact h.array w hw
      · exact hv
  next =>
    split
    next =>
      split
      next => exact h
      next => exact h.append (hplain _ trivial) hv
    next => exact h.setNode (hplain _ trivial) hv

theorem Holds.setKey (h : t.Holds P) {k : Key} {v : Value} (hk : P k.value) (hv : P v) :
    (t.setKey k v).Holds P := by
  unfold Table.setKey
  split
  next i => exact h.setInt hplain i hv
  next => exact h.setNode hk hv

/-- The key that a value stands for has the property of the value. -/
theorem holds_key? {k : Value} {key : Key} (hk : P k) (hkey : k.key? = some key) :
    P key.value := by
  cases k with
  | nil => cases hkey
  | float d =>
    simp only [Value.key?] at hkey
    split at hkey
    · cases hkey
      exact hplain _ trivial
    · split at hkey
      · cases hkey
      · cases hkey
        exact hplain _ trivial
  | _ =>
    cases hkey
    exact hk

theorem holds_assignable {k : Value} {key : Key} (hk : P k) (hkey : assignable k = .ok key) :
    P key.value := by
  unfold assignable at hkey
  split at hkey
  next hsome =>
    cases hkey
    exact holds_key? hplain hk hsome
  next => cases hkey

/-! ## Traversal -/

theorem Holds.nextIndexed (h : t.Holds P) (n i : Nat) {entry : Value × Value}
    (hentry : t.nextIndexed n i = some entry) : P entry.1 ∧ P entry.2 := by
  induction n generalizing i with
  | zero => cases hentry
  | succ n ih =>
    rw [Table.nextIndexed] at hentry
    split at hentry
    · exact ih _ hentry
    · cases hentry
      exact ⟨hplain _ trivial, h.getInt (hplain _ trivial) _⟩

omit hplain in
theorem Holds.nextNode (h : t.Holds P) (n i : Nat) {entry : Value × Value}
    (hentry : t.nextNode n i = some entry) : P entry.1 ∧ P entry.2 := by
  induction n generalizing i with
  | zero => cases hentry
  | succ n ih =>
    rw [Table.nextNode] at hentry
    split at hentry
    · cases hentry
    next node hnode =>
      split at hentry
      · exact ih _ hentry
      next k hk =>
        split at hentry
        · exact ih _ hentry
        · cases hentry
          have hmem := Array.mem_of_getElem? hnode
          exact ⟨h.keys node hmem k hk, h.nodes node hmem⟩

theorem Holds.after (h : t.Holds P) (i : Nat) {entry : Value × Value}
    (hentry : t.after i = some entry) : P entry.1 ∧ P entry.2 := by
  unfold Table.after at hentry
  split at hentry
  next hindexed =>
    cases hentry
    exact h.nextIndexed hplain _ _ hindexed
  next => exact h.nextNode _ _ hentry

theorem Holds.next (h : t.Holds P) (k : Value) {entry : Value × Value}
    (hentry : t.next k = .ok (some entry)) : P entry.1 ∧ P entry.2 := by
  unfold Table.next at hentry
  split at hentry
  · exact h.after hplain _ (Except.ok.inj hentry)
  next =>
    split at hentry
    · cases hentry
    next key _ =>
      simp only at hentry
      split at hentry
      · exact h.after hplain _ (Except.ok.inj hentry)
      next =>
        split at hentry
        · exact h.nextNode _ _ (Except.ok.inj hentry)
        · cases hentry

end Table
end LuaMachine
