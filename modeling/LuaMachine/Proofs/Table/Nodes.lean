import LuaMachine.Table
/-! # Positions and nodes of a table

The keys of positions in the array, and how the index fits to the nodes: what each change of a node
does to the values that are found.

* `Table.positionKey`: the key of a position.
* `Table.Indexed`: the index finds each node that has a key, and nothing else.
* `Table.Indexed.push`, `modify`, `erase`, `purge`: the changes keep it so.
-/
set_option autoImplicit false

namespace LuaMachine

theorem Value.isNil_iff {v : Value} : v.isNil = true ↔ v = .nil := by
  cases v <;> simp [Value.isNil]

theorem Value.isNil_eq_false_iff {v : Value} : v.isNil = false ↔ v ≠ .nil := by
  rw [← Bool.not_eq_true, Value.isNil_iff]

namespace Table

/-! ## Positions -/

/-- The key of a position in the array. -/
def positionKey (p : Nat) : Key := .int (Int64.ofNat p)

theorem toNat_ofNat {p : Nat} (hp : p ≤ lastPosition) : (Int64.ofNat p).toUInt64.toNat = p := by
  simp only [lastPosition] at hp
  simp only [Int64.toUInt64_ofNat', UInt64.toNat_ofNat']
  omega

theorem one_le_ofNat {p : Nat} (h : 1 ≤ p) (hp : p ≤ lastPosition) : 1 ≤ Int64.ofNat p := by
  simp only [lastPosition] at hp
  rw [Int64.le_iff_toInt_le, Int64.toInt_ofNat_of_lt (by omega)]
  have h1 : (1 : Int64).toInt = 1 := rfl
  omega

theorem exists_position {i : Int64} (hi : 1 ≤ i) :
    ∃ p, 1 ≤ p ∧ p ≤ lastPosition ∧ i = Int64.ofNat p := by
  rw [Int64.le_iff_toInt_le] at hi
  have h1 : (1 : Int64).toInt = 1 := rfl
  have hlt := i.toInt_lt
  refine ⟨i.toInt.toNat, by omega, by simp only [lastPosition]; omega, ?_⟩
  apply Int64.toInt_inj.mp
  rw [Int64.toInt_ofNat_of_lt (by omega)]
  omega

theorem ofNat_inj {p q : Nat} (hp : p ≤ lastPosition) (hq : q ≤ lastPosition)
    (h : Int64.ofNat p = Int64.ofNat q) : p = q := by
  rw [← toNat_ofNat hp, h, toNat_ofNat hq]

theorem positionKey_inj {p q : Nat} (hp : p ≤ lastPosition) (hq : q ≤ lastPosition)
    (h : positionKey p = positionKey q) : p = q :=
  ofNat_inj hp hq (Key.int.inj h)

/-! ## Nodes and their index -/

/-- The value of a key among the nodes. -/
def lookup (nodes : Array Node) (index : Std.HashMap Key Nat) (k : Key) : Value :=
  match index[k]? with
  | some i =>
    match nodes[i]? with
    | some node => node.value
    | none => .nil
  | none => .nil

/-- The index finds each node that has a key, and nothing else; a node without a key has no value. -/
structure Indexed (nodes : Array Node) (index : Std.HashMap Key Nat) : Prop where
  find : ∀ (k : Key) (i : Nat), index[k]? = some i ↔ ∃ v : Value, nodes[i]? = some ⟨some k, v⟩
  keyless : ∀ v : Value, (⟨none, v⟩ : Node) ∈ nodes → v = .nil
  size : index.size ≤ nodes.size

section indexed

variable {nodes : Array Node} {index : Std.HashMap Key Nat} {k : Key} {i : Nat}

theorem Indexed.empty : Indexed #[] {} where
  find k i := by simp
  keyless v hv := by simp at hv
  size := Nat.le_refl _

theorem Indexed.node (h : Indexed nodes index) (hi : index[k]? = some i) :
    nodes[i]? = some ⟨some k, lookup nodes index k⟩ := by
  obtain ⟨v, hv⟩ := (h.find k i).mp hi
  rw [hv, lookup, hi]
  simp only [hv]

theorem Indexed.lt (h : Indexed nodes index) (hi : index[k]? = some i) : i < nodes.size :=
  (Array.getElem?_eq_some_iff.mp (h.node hi)).1

theorem lookup_of_node (hi : index[k]? = some i) {o : Option Key} {v : Value}
    (hnode : nodes[i]? = some ⟨o, v⟩) : lookup nodes index k = v := by
  simp only [lookup, hi, hnode]

theorem lookup_none (hi : index[k]? = none) : lookup nodes index k = .nil := by
  simp only [lookup, hi]

theorem Indexed.eq_of_node (h : Indexed nodes index) {v : Value}
    (hnode : nodes[i]? = some ⟨some k, v⟩) :
    index[k]? = some i ∧ lookup nodes index k = v := by
  have hi := (h.find k i).mpr ⟨v, hnode⟩
  exact ⟨hi, lookup_of_node hi hnode⟩

/-- A new node at the end. -/
theorem Indexed.push (h : Indexed nodes index) (hnone : index[k]? = none) (v : Value) :
    Indexed (nodes.push ⟨some k, v⟩) (index.insert k nodes.size) where
  find k' j := by
    rw [Std.HashMap.getElem?_insert, Array.getElem?_push]
    split
    next hk =>
      cases eq_of_beq hk
      constructor
      · rintro ⟨⟩
        exact ⟨v, if_pos rfl⟩
      · rintro ⟨w, hw⟩
        split at hw
        next hj => rw [hj]
        next =>
          rw [(h.find k j).mpr ⟨w, hw⟩] at hnone
          cases hnone
    next hk =>
      rw [h.find k' j]
      split
      next hj =>
        subst hj
        constructor
        · rintro ⟨w, hw⟩
          rw [Array.getElem?_eq_none (Nat.le_refl _)] at hw
          cases hw
        · rintro ⟨w, hw⟩
          cases hw
          exact absurd BEq.rfl hk
      next => exact Iff.rfl
  keyless w hw := by
    rcases Array.mem_push.mp hw with hw | hw
    · exact h.keyless w hw
    · cases hw
  size := by
    rw [Array.size_push]
    exact Nat.le_trans Std.HashMap.size_insert_le (Nat.succ_le_succ h.size)

theorem Indexed.lookup_push (h : Indexed nodes index) (v : Value) (k' : Key) :
    lookup (nodes.push ⟨some k, v⟩) (index.insert k nodes.size) k' =
      if k' = k then v else lookup nodes index k' := by
  have hget := Std.HashMap.getElem?_insert (m := index) (k := k) (a := k') (v := nodes.size)
  split
  next hk =>
    rw [if_pos (by rw [hk]; exact BEq.rfl)] at hget
    refine lookup_of_node hget (o := some k) ?_
    rw [Array.getElem?_push, if_pos rfl]
  next hk =>
    rw [if_neg fun hb => hk (eq_of_beq hb).symm] at hget
    cases hi : index[k']? with
    | none => rw [lookup_none hi, lookup_none (hget.trans hi)]
    | some i =>
      refine lookup_of_node (hget.trans hi) (o := some k') ?_
      rw [Array.getElem?_push, if_neg (Nat.ne_of_lt (h.lt hi)), h.node hi]

/-- A new value for a node. -/
theorem Indexed.modify (h : Indexed nodes index) (hi : index[k]? = some i) (v : Value) :
    Indexed (nodes.modify i fun node => { node with value := v }) index where
  find k' j := by
    rw [h.find k' j, Array.getElem?_modify]
    split
    next hj =>
      subst hj
      rw [h.node hi]
      constructor
      · rintro ⟨w, hw⟩
        cases hw
        exact ⟨v, rfl⟩
      · rintro ⟨w, hw⟩
        cases hw
        exact ⟨_, rfl⟩
    next => exact Iff.rfl
  keyless w hw := by
    obtain ⟨j, hj⟩ := Array.mem_iff_getElem?.mp hw
    rw [Array.getElem?_modify] at hj
    split at hj
    next hij =>
      subst hij
      rw [h.node hi] at hj
      cases hj
    next => exact h.keyless w (Array.mem_of_getElem? hj)
  size := by
    rw [Array.size_modify]
    exact h.size

theorem Indexed.lookup_modify (h : Indexed nodes index) (hi : index[k]? = some i) (v : Value)
    (k' : Key) :
    lookup (nodes.modify i fun node => { node with value := v }) index k' =
      if k' = k then v else lookup nodes index k' := by
  split
  next hk =>
    subst hk
    refine lookup_of_node hi (o := some k') ?_
    rw [Array.getElem?_modify, if_pos rfl, h.node hi]
    rfl
  next hk =>
    cases hj : index[k']? with
    | none => rw [lookup_none hj, lookup_none hj]
    | some j =>
      refine lookup_of_node hj (o := some k') ?_
      have hne : i ≠ j := by
        rintro rfl
        have hnode := h.node hj
        rw [h.node hi] at hnode
        cases hnode
        exact hk rfl
      rw [Array.getElem?_modify, if_neg hne, h.node hj]

/-- A node gives up its key and its value. -/
theorem Indexed.erase (h : Indexed nodes index) (hi : index[k]? = some i) :
    Indexed (nodes.modify i fun _ => ⟨none, .nil⟩) (index.erase k) where
  find k' j := by
    rw [Std.HashMap.getElem?_erase, Array.getElem?_modify]
    split
    next hk =>
      cases eq_of_beq hk
      split
      next hj =>
        subst hj
        rw [h.node hi]
        simp
      next hj =>
        rw [← h.find k j, hi]
        simp [hj]
    next hk =>
      rw [h.find k' j]
      split
      next hj =>
        subst hj
        rw [h.node hi]
        constructor
        · rintro ⟨w, hw⟩
          cases hw
          exact absurd BEq.rfl hk
        · rintro ⟨w, hw⟩
          cases hw
      next => exact Iff.rfl
  keyless w hw := by
    obtain ⟨j, hj⟩ := Array.mem_iff_getElem?.mp hw
    rw [Array.getElem?_modify] at hj
    split at hj
    · obtain ⟨_, _, hw⟩ := Option.map_eq_some_iff.mp hj
      cases hw
      rfl
    · exact h.keyless w (Array.mem_of_getElem? hj)
  size := by
    rw [Array.size_modify]
    exact Nat.le_trans Std.HashMap.size_erase_le h.size

theorem Indexed.lookup_erase (h : Indexed nodes index) (hi : index[k]? = some i) (k' : Key) :
    lookup (nodes.modify i fun _ => ⟨none, .nil⟩) (index.erase k) k' =
      if k' = k then .nil else lookup nodes index k' := by
  have hget := Std.HashMap.getElem?_erase (m := index) (k := k) (a := k')
  split
  next hk =>
    rw [if_pos (by rw [hk]; exact BEq.rfl)] at hget
    exact lookup_none hget
  next hk =>
    rw [if_neg fun hb => hk (eq_of_beq hb).symm] at hget
    cases hj : index[k']? with
    | none => rw [lookup_none hj, lookup_none (hget.trans hj)]
    | some j =>
      refine lookup_of_node (hget.trans hj) (o := some k') ?_
      have hne : i ≠ j := by
        rintro rfl
        have hnode := h.node hj
        rw [h.node hi] at hnode
        cases hnode
        exact hk rfl
      rw [Array.getElem?_modify, if_neg hne, h.node hj]

theorem Indexed.lookup_eq_iff (h : Indexed nodes index) {v : Value} (hv : v ≠ .nil) :
    lookup nodes index k = v ↔ ⟨some k, v⟩ ∈ nodes := by
  constructor
  · intro heq
    cases hi : index[k]? with
    | none =>
      rw [lookup_none hi] at heq
      exact absurd heq.symm hv
    | some i =>
      have hnode := h.node hi
      rw [heq] at hnode
      exact Array.mem_of_getElem? hnode
  · intro hmem
    obtain ⟨i, hi⟩ := Array.mem_iff_getElem?.mp hmem
    exact (h.eq_of_node hi).2

/-- The values of a key are the same where the nodes with a value are the same. -/
theorem Indexed.lookup_congr {nodes' : Array Node} {index' : Std.HashMap Key Nat}
    (h : Indexed nodes index) (h' : Indexed nodes' index')
    (hmem : ∀ v : Value, v ≠ .nil → ((⟨some k, v⟩ : Node) ∈ nodes' ↔ (⟨some k, v⟩ : Node) ∈ nodes)) :
    lookup nodes' index' k = lookup nodes index k := by
  by_cases hnil : lookup nodes index k = .nil
  · rw [hnil]
    refine Classical.byContradiction fun hne => ?_
    have hin := (hmem _ hne).mp ((h'.lookup_eq_iff hne).mp rfl)
    exact hne (((h.lookup_eq_iff hne).mpr hin).symm.trans hnil)
  · exact (h'.lookup_eq_iff hnil).mpr ((hmem _ hnil).mpr ((h.lookup_eq_iff hnil).mp rfl))

theorem Indexed.keys_distinct (h : Indexed nodes index) :
    nodes.toList.Pairwise fun a b => a.value ≠ .nil → b.value ≠ .nil → a.key ≠ b.key := by
  rw [List.pairwise_iff_getElem]
  intro i j hi hj hij ha hb heq
  have hgeti : nodes[i]? = some nodes.toList[i] := by
    rw [← Array.getElem?_toList, List.getElem?_eq_getElem hi]
  have hgetj : nodes[j]? = some nodes.toList[j] := by
    rw [← Array.getElem?_toList, List.getElem?_eq_getElem hj]
  generalize nodes.toList[i] = a at *
  generalize nodes.toList[j] = b at *
  obtain ⟨key, v⟩ := a
  obtain ⟨key', w⟩ := b
  cases heq
  cases key with
  | none => exact ha (h.keyless v (Array.mem_of_getElem? hgeti))
  | some k =>
    have h1 := (h.eq_of_node hgeti).1
    rw [(h.eq_of_node hgetj).1] at h1
    cases h1
    exact Nat.lt_irrefl _ hij

/-- The index is made anew, node by node. -/
def reindex (s : Std.HashMap Key Nat × Nat) (node : Node) : Std.HashMap Key Nat × Nat :=
  match node.key with
  | some k => (s.1.insert k s.2, s.2 + 1)
  | none => (s.1, s.2 + 1)

theorem Indexed.reindex (xs : List Node) (h : Indexed nodes index)
    (hnew : ∀ node ∈ xs, ∃ k, node.key = some k ∧ index[k]? = none)
    (hdistinct : xs.Pairwise fun a b => a.key ≠ b.key) :
    Indexed (nodes ++ xs.toArray) (xs.foldl Table.reindex (index, nodes.size)).1 := by
  induction xs generalizing nodes index with
  | nil =>
    rw [Array.append_empty]
    exact h
  | cons node xs ih =>
    obtain ⟨k, hk, hnone⟩ := hnew node List.mem_cons_self
    obtain ⟨key, v⟩ := node
    cases hk
    rw [List.pairwise_cons] at hdistinct
    have hrest := ih (h.push hnone v) (fun node hn => ?_) hdistinct.2
    · rw [Array.size_push] at hrest
      have happend : nodes.push ⟨some k, v⟩ ++ xs.toArray = nodes ++ (⟨some k, v⟩ :: xs).toArray := by
        apply Array.toList_inj.mp
        simp
      rw [happend] at hrest
      exact hrest
    · obtain ⟨k', hk', hnone'⟩ := hnew node (List.mem_cons_of_mem _ hn)
      refine ⟨k', hk', ?_⟩
      rw [Std.HashMap.getElem?_insert, if_neg, hnone']
      intro hb
      refine hdistinct.1 node hn ?_
      rw [hk', eq_of_beq hb]

end indexed

/-! ## Purging -/

theorem Indexed.purge {t : Table} (h : Indexed t.nodes t.index) :
    Indexed t.purge.nodes t.purge.index ∧
      (∀ k, lookup t.purge.nodes t.purge.index k = lookup t.nodes t.index k) ∧
      ∀ k : Key, t.index[k]? = none → t.purge.index[k]? = none := by
  unfold Table.purge
  split
  next => exact ⟨h, fun _ => rfl, fun _ hk => hk⟩
  next =>
    dsimp only
    generalize hkept : t.nodes.filter (fun node => !node.value.isNil) = kept
    have hmem : ∀ node : Node, node ∈ kept ↔ node ∈ t.nodes ∧ node.value ≠ .nil := by
      intro node
      rw [← hkept, Array.mem_filter, Bool.not_eq_true', Value.isNil_eq_false_iff]
    have hindexed : Indexed kept (kept.foldl Table.reindex ({}, 0)).1 := by
      have hall := Indexed.empty.reindex kept.toList (fun node hn => ?_) ?_
      · rw [Array.toArray_toList, Array.empty_append, Array.foldl_toList] at hall
        exact hall
      · obtain ⟨hn, hv⟩ := (hmem node).mp (Array.mem_toList_iff.mp hn)
        obtain ⟨key, v⟩ := node
        cases key with
        | none => exact absurd (h.keyless v hn) hv
        | some k => exact ⟨k, rfl, Std.HashMap.getElem?_empty⟩
      · rw [← hkept, Array.toList_filter, List.pairwise_filter]
        refine h.keys_distinct.imp fun {a b} hab ha hb => hab ?_ ?_
        · rwa [Bool.not_eq_true', Value.isNil_eq_false_iff] at ha
        · rwa [Bool.not_eq_true', Value.isNil_eq_false_iff] at hb
    refine ⟨hindexed, fun k => h.lookup_congr hindexed fun v hv => ?_, fun k hk => ?_⟩
    · rw [hmem]
      exact and_iff_left hv
    · refine Option.eq_none_iff_forall_not_mem.mpr fun i hi => ?_
      obtain ⟨v, hv⟩ := (hindexed.find k i).mp hi
      obtain ⟨j, hj⟩ := Array.mem_iff_getElem?.mp ((hmem _).mp (Array.mem_of_getElem? hv)).1
      rw [(h.eq_of_node hj).1] at hk
      cases hk

theorem purge_array (t : Table) : t.purge.array = t.array := by
  unfold Table.purge
  split <;> rfl

end Table
end LuaMachine
