import LuaMachine.Proofs.Table.Map
import Mathlib.Data.List.Nodup
/-! # Tombstones

A table counts its nodes without a value, so the number of the others is a difference. The count is
right after every assignment: a node loses its value or gets one back, it moves into the array, or
all nodes without a value are dropped at once.

* `Table.Counted`: the count is right.
* `Table.Counted.setNode`, `migrate`, `truncate`: what assignments do to it.
* `Table.entries`: the keys with their values, those of the array first.
* `Table.Consistent`, `Table.consistent_ofSets`: all that holds of the parts of a table.
-/
set_option autoImplicit false

namespace LuaMachine

/-- A node without a value. -/
def Node.isDead (node : Node) : Bool := node.value.isNil

/-- The entry of a node that has a value. -/
def Node.entry? (node : Node) : Option (Key × Value) :=
  if node.isDead then none else node.key.map fun k => (k, node.value)

theorem Node.entry?_eq_some_iff {node : Node} {k : Key} {v : Value} :
    node.entry? = some (k, v) ↔ v ≠ .nil ∧ node = ⟨some k, v⟩ := by
  obtain ⟨key, w⟩ := node
  unfold Node.entry?
  split
  next hdead =>
    cases Value.isNil_iff.mp hdead
    constructor
    · exact fun h => nomatch h
    · rintro ⟨hv, heq⟩
      exact absurd (congrArg Node.value heq).symm hv
  next hdead =>
    have hw : w ≠ .nil := fun heq => hdead (Value.isNil_iff.mpr heq)
    rw [Option.map_eq_some_iff]
    constructor
    · rintro ⟨k', hk', heq⟩
      cases heq
      cases hk'
      exact ⟨hw, rfl⟩
    · rintro ⟨-, heq⟩
      cases heq
      exact ⟨k, rfl, rfl⟩

namespace Table

/-! ## Counting -/

theorem countP_modify {α : Type} {p : α → Bool} {xs : Array α} {i : Nat} {x : α}
    (hi : xs[i]? = some x) (f : α → α) :
    (xs.modify i f).countP p + (if p x then 1 else 0) = xs.countP p + if p (f x) then 1 else 0 := by
  obtain ⟨hlt, rfl⟩ := Array.getElem?_eq_some_iff.mp hi
  have hset : xs.modify i f = xs.set i (f xs[i]) hlt := by
    apply Array.ext_getElem?
    intro j
    rw [Array.getElem?_modify, Array.getElem?_set]
    split
    next hij =>
      subst hij
      rw [Array.getElem?_eq_getElem hlt]
      rfl
    next => rfl
  have hle := Array.boole_getElem_le_countP (p := p) hlt
  rw [hset, Array.countP_set]
  omega

/-- As many tombstones are counted as there are. -/
def Counted (t : Table) : Prop := t.tombstones = t.nodes.countP Node.isDead

variable {t : Table} {k : Key} {v : Value}

theorem Counted.empty : Counted {} := rfl

theorem Counted.purge (h : Counted t) : Counted t.purge := by
  unfold Table.purge
  split
  next => exact h
  next =>
    show 0 = (t.nodes.filter fun node => !node.isDead).countP Node.isDead
    rw [Array.countP_filter]
    symm
    rw [Array.countP_eq_zero]
    intro node _
    cases node.isDead with
    | false => exact Bool.noConfusion
    | true => exact Bool.noConfusion

theorem Counted.setNode (h : Counted t) (hindexed : Indexed t.nodes t.index) :
    Counted (t.setNode k v) := by
  unfold Table.setNode
  split
  next i hi =>
    have hnode := hindexed.node hi
    generalize lookup t.nodes t.index k = old at hnode
    have hcount := countP_modify (p := Node.isDead) hnode fun node => { node with value := v }
    have hget : t.nodes.getD i ⟨none, .nil⟩ = ⟨some k, old⟩ := by
      rw [Array.getD_eq_getD_getElem?, hnode, Option.getD_some]
    have hold : Node.isDead ⟨some k, old⟩ = old.isNil := rfl
    have hnew : Node.isDead ⟨some k, v⟩ = v.isNil := rfl
    rw [hold, hnew, ← h] at hcount
    show (if (t.nodes.getD i ⟨none, .nil⟩).value.isNil && !v.isNil then t.tombstones - 1
      else if !(t.nodes.getD i ⟨none, .nil⟩).value.isNil && v.isNil then t.tombstones + 1
      else t.tombstones) = _
    rw [hget]
    -- only a node that loses its value or gets one back changes the number
    cases hn : old.isNil <;> cases hv : v.isNil <;> simp [hn, hv] at hcount ⊢ <;> omega
  next =>
    split
    next => exact h
    next hv =>
      show t.purge.tombstones = (t.purge.nodes.push ⟨some k, v⟩).countP Node.isDead
      have hdead : Node.isDead ⟨some k, v⟩ = v.isNil := rfl
      rw [Array.countP_push, hdead, if_neg hv]
      exact h.purge

theorem Counted.migrate (fuel : Nat) (h : Counted t) (hindexed : Indexed t.nodes t.index) :
    Counted (t.migrate fuel) := by
  induction fuel generalizing t with
  | zero => exact h
  | succ fuel ih =>
    rw [migrate_succ]
    split
    next => exact h
    next =>
      split
      next => exact h
      next i hi =>
        have hnode := hindexed.node hi
        have herase := hindexed.erase hi
        rw [Array.getD_eq_getD_getElem?, hnode, Option.getD_some]
        dsimp only
        generalize lookup t.nodes t.index (positionKey (t.array.size + 1)) = old at hnode ⊢
        have hmoved := countP_modify (p := Node.isDead) hnode fun _ => ⟨none, .nil⟩
        have hold : Node.isDead ⟨some (positionKey (t.array.size + 1)), old⟩ = old.isNil := rfl
        have hgone : Node.isDead ⟨none, .nil⟩ = true := rfl
        rw [hold, hgone, if_pos rfl] at hmoved
        split
        next hnil =>
          cases Value.isNil_iff.mp hnil
          rw [if_pos hnil] at hmoved
          rw [modify_key_eq hnode]
          exact h.trans (Nat.add_right_cancel hmoved).symm
        next hnil =>
          rw [if_neg hnil] at hmoved
          refine ih ?_ herase
          show t.tombstones + 1 = Array.countP _ _
          rw [h]
          exact hmoved.symm

theorem Counted.append (h : Counted t) (hindexed : Indexed t.nodes t.index) :
    Counted (t.append v) := by
  obtain ⟨d, -, hd⟩ := append_eq t v
  rw [hd]
  exact Counted.migrate (t := { t with array := t.array.push v }) t.nodes.size h hindexed

/-- The values behind a hole are not nil, so no tombstone is added. -/
theorem Counted.truncate (h : Counted t) (hvalid : Valid t) (n : Nat) :
    Counted (t.truncate n) := by
  have hmoved : ∀ (js : List Nat) (s : Array Node × Std.HashMap Key Nat),
      (∀ j ∈ js, j < t.array.size) →
      (js.foldl (Table.detach t.array) s).1.countP Node.isDead = s.1.countP Node.isDead := by
    intro js
    induction js with
    | nil => exact fun _ _ => rfl
    | cons j js ih =>
      intro s hjs
      have hj := hjs j List.mem_cons_self
      have hdead : Node.isDead ⟨some (positionKey (j + 1)), t.array.getD j .nil⟩ = false := by
        refine Value.isNil_eq_false_iff.mpr ?_
        rw [Array.getD_eq_getD_getElem?, Array.getElem?_eq_getElem hj, Option.getD_some]
        exact hvalid.whole _ (Array.getElem_mem hj)
      rw [List.foldl_cons, ih _ fun i hi => hjs i (List.mem_cons_of_mem _ hi), Table.detach,
        Array.countP_push, hdead, if_neg Bool.false_ne_true]
      rfl
  rw [truncate_eq]
  refine h.trans (hmoved _ (t.nodes, t.index) fun j hj => ?_).symm
  rw [List.mem_range'_1] at hj
  omega

theorem Counted.setKey (h : Counted t) (hvalid : Valid t) (k : Key) (v : Value) :
    Counted (t.setKey k v) := by
  rw [setKey_eq]
  split
  next n _ =>
    split
    next => exact h.truncate hvalid n
    next => exact h
  next =>
    split
    next =>
      split
      next => exact h
      next => exact h.append hvalid.indexed
    next => exact h.setNode hvalid.indexed

theorem counted_ofSets (sets : List (Value × Value)) : Counted (ofSets sets) := by
  induction sets using List.reverseRecOn with
  | nil => exact .empty
  | append_singleton sets s ih =>
    obtain ⟨k, v⟩ := s
    rw [ofSets_concat]
    cases hk : k.key? with
    | some key =>
      rw [assign_of_key? _ hk]
      exact ih.setKey (valid_ofSets sets) key v
    | none =>
      rw [assign_of_no_key _ hk]
      exact ih

/-! ## Entries -/

/-- The positions of the array with their values. -/
def arrayEntries (t : Table) : List (Key × Value) :=
  (List.range t.array.size).map fun i => (positionKey (i + 1), t.array.getD i .nil)

def nodeEntries (t : Table) : List (Key × Value) := t.nodes.toList.filterMap Node.entry?

/-- The entries as they are stored, those of the array first. -/
def entries (t : Table) : List (Key × Value) := t.arrayEntries ++ t.nodeEntries

theorem mem_arrayEntries_iff :
    (k, v) ∈ t.arrayEntries ↔
      ∃ i < t.array.size, k = positionKey (i + 1) ∧ v = t.array.getD i .nil := by
  simp only [arrayEntries, List.mem_map, List.mem_range, Prod.mk.injEq]
  constructor
  · rintro ⟨i, hi, hk, hv⟩
    exact ⟨i, hi, hk.symm, hv.symm⟩
  · rintro ⟨i, hi, hk, hv⟩
    exact ⟨i, hi, hk.symm, hv.symm⟩

theorem mem_nodeEntries_iff :
    (k, v) ∈ t.nodeEntries ↔ v ≠ .nil ∧ (⟨some k, v⟩ : Node) ∈ t.nodes := by
  simp only [nodeEntries, List.mem_filterMap, Array.mem_toList_iff, Node.entry?_eq_some_iff]
  constructor
  · rintro ⟨node, hnode, hv, rfl⟩
    exact ⟨hv, hnode⟩
  · rintro ⟨hv, hnode⟩
    exact ⟨_, hnode, hv, rfl⟩

/-- No key of a node is a position of the array, or the position behind it. -/
theorem Valid.apart_int (h : Valid t) {i : Int64} (h1 : 1 ≤ i) (hi : i.toInt ≤ t.array.size + 1) :
    t.index[Key.int i]? = none := by
  obtain ⟨p, hp1, hp, rfl⟩ := exists_position h1
  have hvalue : (Int64.ofNat p).toInt = p := Int64.toInt_ofNat_of_lt (Nat.lt_succ_of_le hp)
  rw [hvalue] at hi
  by_cases hin : p ≤ t.array.size
  · exact h.apart p hp1 hin
  · obtain rfl : p = t.array.size + 1 := by omega
    exact h.ends hp

theorem Valid.nodup_arrayEntries (h : Valid t) : (t.arrayEntries.map Prod.fst).Nodup := by
  rw [arrayEntries, List.map_map]
  refine List.Nodup.map_on (fun i hi j hj heq => ?_) List.nodup_range
  rw [List.mem_range] at hi hj
  have hsize := h.size_le
  exact Nat.succ.inj (positionKey_inj (by omega) (by omega) heq)

theorem Valid.nodup_nodeEntries (h : Valid t) : (t.nodeEntries.map Prod.fst).Nodup := by
  rw [nodeEntries, List.Nodup, List.pairwise_map, List.pairwise_filterMap]
  refine h.indexed.keys_distinct.imp fun hne => ?_
  rintro ⟨k, v⟩ hkv ⟨k', v'⟩ hkv' rfl
  obtain ⟨hv, rfl⟩ := Node.entry?_eq_some_iff.mp hkv
  obtain ⟨hv', rfl⟩ := Node.entry?_eq_some_iff.mp hkv'
  exact hne hv hv' rfl

/-- No key is stored twice. -/
theorem Valid.nodup_entries (h : Valid t) : (t.entries.map Prod.fst).Nodup := by
  rw [entries, List.map_append]
  refine List.Nodup.append h.nodup_arrayEntries h.nodup_nodeEntries ?_
  intro k hk hk'
  obtain ⟨⟨_, v⟩, hkv, rfl⟩ := List.mem_map.mp hk
  obtain ⟨⟨_, v'⟩, hkv', heq⟩ := List.mem_map.mp hk'
  cases heq
  obtain ⟨i, hi, hpos, -⟩ := mem_arrayEntries_iff.1 hkv
  obtain ⟨j, hj⟩ := Array.mem_iff_getElem?.mp (mem_nodeEntries_iff.1 hkv').2
  have hfound := (h.indexed.eq_of_node hj).1
  rw [hpos, h.apart (i + 1) (Nat.succ_pos i) hi] at hfound
  cases hfound

/-- What is stored is what look-ups give. -/
theorem Valid.mem_entries_iff (h : Valid t) : (k, v) ∈ t.entries ↔ v ≠ .nil ∧ t.getKey k = v := by
  rw [entries, List.mem_append, mem_arrayEntries_iff, mem_nodeEntries_iff]
  by_cases hk : ∃ i < t.array.size, k = positionKey (i + 1)
  · obtain ⟨i, hi, rfl⟩ := hk
    rw [getKey_array h.size_le hi]
    have hwhole : t.array.getD i .nil ≠ .nil := by
      rw [Array.getD_eq_getD_getElem?, Array.getElem?_eq_getElem hi, Option.getD_some]
      exact h.whole _ (Array.getElem_mem hi)
    constructor
    · rintro (⟨j, hj, heq, rfl⟩ | ⟨-, hnode⟩)
      · have hsize := h.size_le
        obtain rfl := Nat.succ.inj (positionKey_inj (by omega) (by omega) heq)
        exact ⟨hwhole, rfl⟩
      · obtain ⟨j, hj⟩ := Array.mem_iff_getElem?.mp hnode
        have hfound := (h.indexed.eq_of_node hj).1
        rw [h.apart (i + 1) (Nat.succ_pos i) hi] at hfound
        cases hfound
    · rintro ⟨-, hv⟩
      exact .inl ⟨i, hi, rfl, hv.symm⟩
  · have hout : ∀ i < t.array.size, k ≠ positionKey (i + 1) := fun i hi heq => hk ⟨i, hi, heq⟩
    rw [getKey_node h.size_le hout]
    constructor
    · rintro (⟨i, hi, heq, -⟩ | ⟨hv, hnode⟩)
      · exact absurd heq (hout i hi)
      · exact ⟨hv, (h.indexed.lookup_eq_iff hv).mpr hnode⟩
    · rintro ⟨hv, hlook⟩
      exact .inr ⟨hv, (h.indexed.lookup_eq_iff hv).mp hlook⟩

/-- The difference of nodes and tombstones is the number of entries that are nodes. -/
theorem Valid.liveNodes_eq (h : Valid t) (hcounted : Counted t) :
    t.tombstones ≤ t.nodes.size ∧ t.liveNodes = t.nodeEntries.length := by
  have hlive : t.nodeEntries.length = t.nodes.countP fun node => !node.isDead := by
    rw [nodeEntries, List.length_filterMap_eq_countP, ← Array.countP_toList]
    refine List.countP_congr fun node hnode => ?_
    obtain ⟨key, v⟩ := node
    rw [Array.mem_toList_iff] at hnode
    unfold Node.entry?
    cases hdead : Node.isDead ⟨key, v⟩ with
    | true => exact Iff.rfl
    | false =>
      cases key with
      | some k => exact Iff.rfl
      | none =>
        rw [h.indexed.keyless v hnode] at hdead
        cases hdead
  have hsize : t.nodes.size = t.nodes.countP Node.isDead +
      t.nodes.countP fun n => decide ¬n.isDead = true :=
    Array.size_eq_countP_add_countP
  simp only [Bool.not_eq_true, Bool.decide_eq_false] at hsize
  rw [Table.liveNodes, hlive, hcounted]
  omega

/-! ## The parts of a table -/

/-- All that holds of the parts of a table: the array, the nodes, their index and the number of
tombstones. -/
structure Consistent (t : Table) : Prop where
  whole : ∀ v ∈ t.array, v ≠ .nil
  find : ∀ (k : Key) (i : Nat), t.index[k]? = some i ↔ ∃ v : Value, t.nodes[i]? = some ⟨some k, v⟩
  distinct : ∀ (i j : Nat) (k : Key) (v w : Value), t.nodes[i]? = some ⟨some k, v⟩ →
    t.nodes[j]? = some ⟨some k, w⟩ → i = j
  apart : ∀ i : Int64, 1 ≤ i → i.toInt ≤ t.array.size + 1 → t.index[Key.int i]? = none
  dead : t.tombstones = t.nodes.countP fun node => node.value.isNil
  dead_le : t.tombstones ≤ t.nodes.size
  live : t.liveNodes = t.nodeEntries.length
  length_le : t.length ≤ lastPosition
  reaches : 0 < t.length → t.get (.int (Int64.ofNat t.length)) ≠ .nil
  ends : t.length < lastPosition → t.get (.int (Int64.ofNat (t.length + 1))) = .nil
  once : (t.entries.map Prod.fst).Nodup
  stored : ∀ (k : Key) (v : Value), (k, v) ∈ t.entries ↔ v ≠ .nil ∧ t.getKey k = v

theorem Valid.consistent (h : Valid t) (hcounted : Counted t) : Consistent t where
  whole := h.whole
  find := h.indexed.find
  distinct i j k v w hi hj := by
    have hfound := (h.indexed.eq_of_node hi).1
    rw [(h.indexed.eq_of_node hj).1] at hfound
    exact (Option.some.inj hfound).symm
  apart _ h1 hi := h.apart_int h1 hi
  dead := hcounted
  dead_le := (h.liveNodes_eq hcounted).1
  live := (h.liveNodes_eq hcounted).2
  length_le := h.size_le
  reaches hpos := by
    obtain ⟨n, hn⟩ := Nat.exists_eq_add_of_lt hpos
    have hlast : n < t.array.size := by
      show n < t.length
      omega
    have hkey : t.get (.int (Int64.ofNat t.length)) = t.getKey (positionKey (n + 1)) := by
      rw [hn, Nat.zero_add]
      rfl
    rw [hkey, getKey_array h.size_le hlast, Array.getD_eq_getD_getElem?,
      Array.getElem?_eq_getElem hlast, Option.getD_some]
    exact h.whole _ (Array.getElem_mem hlast)
  ends hlt := by
    have hout : ∀ n < t.array.size, positionKey (t.length + 1) ≠ positionKey (n + 1) := by
      intro n hn heq
      have hne : t.array.size ≠ n := (Nat.ne_of_lt hn).symm
      exact hne (Nat.succ.inj (positionKey_inj hlt (Nat.le_of_lt (Nat.lt_of_le_of_lt hn hlt)) heq))
    exact (getKey_node h.size_le hout).trans (lookup_none (h.ends hlt))
  once := h.nodup_entries
  stored _ _ := h.mem_entries_iff

/-- Whatever is assigned to an empty table, its parts fit together. -/
theorem consistent_ofSets (sets : List (Value × Value)) : Consistent (ofSets sets) :=
  (valid_ofSets sets).consistent (counted_ofSets sets)

end Table
end LuaMachine
