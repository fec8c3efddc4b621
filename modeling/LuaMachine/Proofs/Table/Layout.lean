import LuaMachine.Proofs.Table.Nodes
/-! # The layout of a table

How the array and the nodes of a table fit together, and that assignment keeps it so.

* `Table.Valid`: the array has no holes, and neither its keys nor the one behind it have a node.
* `Table.Valid.truncate`, `append`, `overwrite`, `setNode`: the ways to assign.
* `Table.Valid.assign`: an assignment keeps the layout, and changes the value of its key alone.
-/
set_option autoImplicit false

namespace LuaMachine
namespace Table

/-! ## The array and the nodes -/

/-- The array has no holes, and none of its positions has a node. -/
structure Dense (t : Table) : Prop where
  indexed : Indexed t.nodes t.index
  whole : ∀ v ∈ t.array, v ≠ .nil
  size_le : t.array.size ≤ lastPosition
  apart : ∀ p, 1 ≤ p → p ≤ t.array.size → t.index[positionKey p]? = none

/-- The position behind the array has no node either. -/
structure Valid (t : Table) : Prop extends Dense t where
  ends : t.array.size < lastPosition → t.index[positionKey (t.array.size + 1)]? = none

theorem Valid.empty : Valid {} where
  indexed := .empty
  whole v hv := by simp at hv
  size_le := Nat.zero_le _
  apart p h1 hp := absurd (Nat.le_trans h1 hp) (by decide)
  ends _ := Std.HashMap.getElem?_empty

variable {t : Table} {k : Key}

/-- The place in the array of a key, if it has one. -/
def place? (t : Table) : Key → Option Nat
  | .int i => t.slot? i
  | _ => none

theorem getKey_eq (t : Table) (k : Key) :
    t.getKey k =
      match t.place? k with
      | some n => t.array.getD n .nil
      | none => lookup t.nodes t.index k := by
  cases k <;> rfl

theorem slot?_ofNat (t : Table) {p : Nat} (h1 : 1 ≤ p) (hp : p ≤ lastPosition) :
    t.slot? (Int64.ofNat p) = if p ≤ t.array.size then some (p - 1) else none := by
  unfold Table.slot?
  rw [if_pos (one_le_ofNat h1 hp)]
  simp only [toNat_ofNat hp]

theorem place?_eq_some_iff (hsize : t.array.size ≤ lastPosition) {n : Nat} :
    t.place? k = some n ↔ n < t.array.size ∧ k = positionKey (n + 1) := by
  constructor
  · intro h
    cases k with
    | int i =>
      have hi : 1 ≤ i := by
        refine Classical.byContradiction fun hi => ?_
        rw [place?, slot?, if_neg hi] at h
        cases h
      obtain ⟨p, h1, hp, rfl⟩ := exists_position hi
      rw [place?, slot?_ofNat t h1 hp] at h
      split at h
      next hle =>
        cases h
        exact ⟨by omega, by rw [Nat.sub_add_cancel h1]; rfl⟩
      next => cases h
    | _ => cases h
  · rintro ⟨hn, rfl⟩
    rw [positionKey, place?, slot?_ofNat t (Nat.succ_pos n) (by omega),
      if_pos (Nat.succ_le_of_lt hn)]
    rfl

theorem place?_eq_none_iff (hsize : t.array.size ≤ lastPosition) :
    t.place? k = none ↔ ∀ n < t.array.size, k ≠ positionKey (n + 1) := by
  rw [Option.eq_none_iff_forall_ne_some]
  constructor
  · intro h n hn hk
    exact h n ((place?_eq_some_iff hsize).mpr ⟨hn, hk⟩)
  · intro h n hn
    obtain ⟨hn, hk⟩ := (place?_eq_some_iff hsize).mp hn
    exact h n hn hk

theorem getKey_array (hsize : t.array.size ≤ lastPosition) {n : Nat} (hn : n < t.array.size) :
    t.getKey (positionKey (n + 1)) = t.array.getD n .nil := by
  rw [getKey_eq, (place?_eq_some_iff hsize).mpr ⟨hn, rfl⟩]

theorem getKey_node (hsize : t.array.size ≤ lastPosition)
    (hk : ∀ n < t.array.size, k ≠ positionKey (n + 1)) :
    t.getKey k = lookup t.nodes t.index k := by
  rw [getKey_eq, (place?_eq_none_iff hsize).mpr hk]

/-- Two tables give a key the same value if its place in the array is the same in both, and its
node too if it has no place. -/
theorem getKey_congr {t' : Table} (hsize : t.array.size ≤ lastPosition)
    (hsize' : t'.array.size ≤ lastPosition) (harray : t'.array.size = t.array.size)
    (hplace : ∀ n < t.array.size, k = positionKey (n + 1) →
      t'.array.getD n .nil = t.array.getD n .nil)
    (hnode : (∀ n < t.array.size, k ≠ positionKey (n + 1)) →
      lookup t'.nodes t'.index k = lookup t.nodes t.index k) : t'.getKey k = t.getKey k := by
  by_cases hk : ∃ n < t.array.size, k = positionKey (n + 1)
  · obtain ⟨n, hn, rfl⟩ := hk
    rw [getKey_array hsize hn, getKey_array hsize' (harray ▸ hn), hplace n hn rfl]
  · have hk : ∀ n < t.array.size, k ≠ positionKey (n + 1) := fun n hn heq => hk ⟨n, hn, heq⟩
    rw [getKey_node hsize hk, getKey_node hsize' (harray ▸ hk), hnode hk]

/-! ## Assignment to a position of the array -/

theorem Valid.overwrite (h : Valid t) (n : Nat) {v : Value} (hv : v ≠ .nil) : Valid { t with array := t.array.setIfInBounds n v } where
  indexed := h.indexed
  whole w hw := by
    rcases Array.mem_or_eq_of_mem_setIfInBounds hw with hw | rfl
    · exact h.whole w hw
    · exact hv
  size_le := by
    rw [Array.size_setIfInBounds]
    exact h.size_le
  apart p h1 hp := by
    rw [Array.size_setIfInBounds] at hp
    exact h.apart p h1 hp
  ends hlt := by
    rw [Array.size_setIfInBounds] at hlt ⊢
    exact h.ends hlt

theorem getKey_overwrite (h : Valid t) {n : Nat} (hn : n < t.array.size) (v : Value) (k : Key) :
    getKey { t with array := t.array.setIfInBounds n v } k =
      if k = positionKey (n + 1) then v else t.getKey k := by
  have hsize : (t.array.setIfInBounds n v).size = t.array.size := Array.size_setIfInBounds
  split
  next hk =>
    subst hk
    rw [getKey_array (hsize ▸ h.size_le) (hsize ▸ hn), Array.getD_eq_getD_getElem?,
      Array.getElem?_setIfInBounds_self_of_lt hn]
    rfl
  next hk =>
    refine getKey_congr h.size_le (hsize ▸ h.size_le) hsize (fun j hj hkj => ?_) fun _ => rfl
    have hne : n ≠ j := by
      rintro rfl
      exact hk hkj
    rw [Array.getD_eq_getD_getElem?, Array.getD_eq_getD_getElem?,
      Array.getElem?_setIfInBounds_ne hne]

/-! ## Holes -/

/-- A position of the array becomes a node. -/
def detach (array : Array Value) (s : Array Node × Std.HashMap Key Nat) (i : Nat) :
    Array Node × Std.HashMap Key Nat :=
  (s.1.push ⟨some (positionKey (i + 1)), array.getD i .nil⟩,
    s.2.insert (positionKey (i + 1)) s.1.size)

theorem truncate_eq (t : Table) (n : Nat) :
    t.truncate n =
      let moved := (List.range' (n + 1) (t.array.size - (n + 1))).foldl (detach t.array)
        (t.nodes, t.index)
      { t with
        nodes := moved.1
        index := moved.2
        array := t.array.shrink n
        detached := max t.detached t.array.size } := rfl

theorem Indexed.detach (array : Array Value) (js : List Nat)
    {nodes : Array Node} {index : Std.HashMap Key Nat} (h : Indexed nodes index)
    (hle : ∀ j ∈ js, j < lastPosition) (hdistinct : js.Nodup)
    (hnew : ∀ j ∈ js, index[positionKey (j + 1)]? = none) :
    let moved := js.foldl (Table.detach array) (nodes, index)
    Indexed moved.1 moved.2 ∧
      (∀ j ∈ js, lookup moved.1 moved.2 (positionKey (j + 1)) = array.getD j .nil) ∧
      ∀ k : Key, (∀ j ∈ js, k ≠ positionKey (j + 1)) →
        moved.2[k]? = index[k]? ∧ lookup moved.1 moved.2 k = lookup nodes index k := by
  induction js generalizing nodes index with
  | nil =>
    refine ⟨h, fun j hj => ?_, fun k _ => ⟨rfl, rfl⟩⟩
    cases hj
  | cons i js ih =>
    rw [List.nodup_cons] at hdistinct
    have hi := hle i List.mem_cons_self
    have hne : ∀ j ∈ js, positionKey (j + 1) ≠ positionKey (i + 1) := by
      intro j hj heq
      have hji := positionKey_inj (Nat.succ_le_of_lt (hle j (List.mem_cons_of_mem _ hj)))
        (Nat.succ_le_of_lt hi) heq
      cases Nat.succ.inj hji
      exact hdistinct.1 hj
    have hget : ∀ k : Key, k ≠ positionKey (i + 1) →
        (index.insert (positionKey (i + 1)) nodes.size)[k]? = index[k]? := by
      intro k hk
      rw [Std.HashMap.getElem?_insert, if_neg fun hb => hk (eq_of_beq hb).symm]
    have hpush := h.push (hnew i List.mem_cons_self) (array.getD i .nil)
    have hlook := h.lookup_push (k := positionKey (i + 1)) (array.getD i .nil)
    obtain ⟨hindexed, hmoved, hother⟩ := ih hpush (fun j hj => hle j (List.mem_cons_of_mem _ hj))
      hdistinct.2 fun j hj => (hget _ (hne j hj)).trans (hnew j (List.mem_cons_of_mem _ hj))
    refine ⟨hindexed, fun j hj => ?_, fun k hk => ?_⟩
    · rcases List.mem_cons.mp hj with rfl | hj
      · refine (hother _ fun i hi heq => hne i hi heq.symm).2.trans ?_
        rw [hlook, if_pos rfl]
      · exact hmoved j hj
    · have hki := hk i List.mem_cons_self
      obtain ⟨hfound, hvalue⟩ := hother k fun j hj => hk j (List.mem_cons_of_mem _ hj)
      refine ⟨hfound.trans (hget k hki), hvalue.trans ?_⟩
      rw [hlook, if_neg hki]

section truncate

variable {n : Nat}

theorem truncate_size (hn : n < t.array.size) : (t.truncate n).array.size = n := by
  rw [truncate_eq]
  simp only [Array.size_shrink]
  omega

theorem truncate_getElem? (t : Table) (n i : Nat) :
    (t.truncate n).array[i]? = if i < n then t.array[i]? else none := by
  show (t.array.shrink n)[i]? = _
  rw [← Array.getElem?_toList, Array.toList_shrink, List.getElem?_take, Array.getElem?_toList]

theorem truncate_getD {i : Nat} (hi : i < n) :
    (t.truncate n).array.getD i .nil = t.array.getD i .nil := by
  rw [Array.getD_eq_getD_getElem?, Array.getD_eq_getD_getElem?, truncate_getElem?, if_pos hi]

/-- What a hole does to the nodes: the keys behind it become nodes, and no other key changes. -/
theorem Valid.detached (h : Valid t) :
    Indexed (t.truncate n).nodes (t.truncate n).index ∧
      (∀ j, n < j → j < t.array.size →
        lookup (t.truncate n).nodes (t.truncate n).index (positionKey (j + 1)) =
          t.array.getD j .nil) ∧
      ∀ k : Key, (∀ j, n < j → j < t.array.size → k ≠ positionKey (j + 1)) →
        (t.truncate n).index[k]? = t.index[k]? ∧
          lookup (t.truncate n).nodes (t.truncate n).index k = lookup t.nodes t.index k := by
  have hmem : ∀ j, j ∈ List.range' (n + 1) (t.array.size - (n + 1)) ↔ n < j ∧ j < t.array.size := by
    intro j
    rw [List.mem_range'_1]
    omega
  have hsize := h.size_le
  obtain ⟨hindexed, hmoved, hother⟩ := h.indexed.detach t.array
    (List.range' (n + 1) (t.array.size - (n + 1)))
    (fun j hj => Nat.lt_of_lt_of_le ((hmem j).mp hj).2 hsize) (List.nodup_range' ..)
    fun j hj => h.apart (j + 1) (Nat.succ_pos j) ((hmem j).mp hj).2
  exact ⟨hindexed, fun j hn hj => hmoved j ((hmem j).mpr ⟨hn, hj⟩),
    fun k hk => hother k fun j hj => hk j ((hmem j).mp hj).1 ((hmem j).mp hj).2⟩

theorem Valid.truncate (h : Valid t) (hn : n < t.array.size) : Valid (t.truncate n) := by
  obtain ⟨hindexed, -, hother⟩ := h.detached (n := n)
  have hsize := truncate_size hn
  have hle := h.size_le
  have hgone : ∀ p, 1 ≤ p → p ≤ n + 1 → (t.truncate n).index[positionKey p]? = none := by
    intro p h1 hp
    rw [(hother _ fun j hj hjs heq => ?_).1]
    · exact h.apart p h1 (Nat.le_trans hp hn)
    · have := positionKey_inj (by omega) (by omega) heq
      omega
  refine { indexed := hindexed, whole := fun v hv => ?_, size_le := ?_, apart := fun p h1 hp => ?_,
           ends := fun _ => ?_ }
  · obtain ⟨i, hi⟩ := Array.mem_iff_getElem?.mp hv
    rw [truncate_getElem?] at hi
    split at hi
    · exact h.whole v (Array.mem_of_getElem? hi)
    · cases hi
  · rw [hsize]
    omega
  · rw [hsize] at hp
    exact hgone p h1 (by omega)
  · rw [hsize]
    exact hgone _ (Nat.succ_pos n) (Nat.le_refl _)

theorem getKey_truncate (h : Valid t) (hn : n < t.array.size) (k : Key) :
    (t.truncate n).getKey k = if k = positionKey (n + 1) then .nil else t.getKey k := by
  obtain ⟨-, hmoved, hother⟩ := h.detached (n := n)
  have hsize := truncate_size hn
  have hle := h.size_le
  have hle' : (t.truncate n).array.size ≤ lastPosition := (h.truncate hn).size_le
  by_cases hk : ∃ j < t.array.size, k = positionKey (j + 1)
  · obtain ⟨j, hj, rfl⟩ := hk
    rw [getKey_array hle hj]
    have hoff : ∀ i < (t.truncate n).array.size, n ≤ j → positionKey (j + 1) ≠ positionKey (i + 1) := by
      intro i hi hnj heq
      have := positionKey_inj (by omega) (by omega) heq
      omega
    rcases Nat.lt_trichotomy j n with hlt | rfl | hgt
    · rw [getKey_array hle' (by omega), truncate_getD hlt, if_neg]
      intro heq
      have := positionKey_inj (by omega) (by omega) heq
      omega
    · rw [if_pos rfl, getKey_node hle' fun i hi => hoff i hi (Nat.le_refl _)]
      have hkeep := hother (positionKey (j + 1)) fun i hi his heq => by
        have := positionKey_inj (by omega) (by omega) heq
        omega
      rw [hkeep.2, lookup_none (h.apart (j + 1) (Nat.succ_pos j) hn)]
    · rw [getKey_node hle' fun i hi => hoff i hi (Nat.le_of_lt hgt), hmoved j hgt hj, if_neg]
      intro heq
      have := positionKey_inj (by omega) (by omega) heq
      omega
  · have hk : ∀ j < t.array.size, k ≠ positionKey (j + 1) := fun j hj heq => hk ⟨j, hj, heq⟩
    rw [getKey_node hle hk, getKey_node hle' fun i hi => hk i (by omega),
      (hother k fun j _ hj => hk j hj).2, if_neg (hk n hn)]

end truncate

/-! ## Appending -/

section append

variable {u : Table} {v : Value}

/-- The array takes over the position behind it. -/
theorem Dense.push (h : Dense t) (hv : v ≠ .nil) (hlt : t.array.size < lastPosition)
    (harray : u.array = t.array.push v) (hindexed : Indexed u.nodes u.index)
    (hgone : u.index[positionKey (t.array.size + 1)]? = none)
    (hother : ∀ k : Key, k ≠ positionKey (t.array.size + 1) → u.index[k]? = t.index[k]?) :
    Dense u where
  indexed := hindexed
  whole w hw := by
    rcases Array.mem_push.mp (harray ▸ hw) with hw | rfl
    · exact h.whole w hw
    · exact hv
  size_le := by
    rw [harray, Array.size_push]
    exact hlt
  apart p h1 hp := by
    rw [harray, Array.size_push] at hp
    by_cases hlast : p = t.array.size + 1
    · rw [hlast]
      exact hgone
    · rw [hother _ fun heq => hlast (positionKey_inj (by omega) hlt heq)]
      exact h.apart p h1 (by omega)

theorem getKey_push (hlt : t.array.size < lastPosition) (harray : u.array = t.array.push v)
    (hother : ∀ k, k ≠ positionKey (t.array.size + 1) →
      lookup u.nodes u.index k = lookup t.nodes t.index k) (k : Key) :
    u.getKey k = if k = positionKey (t.array.size + 1) then v else t.getKey k := by
  have hsize : u.array.size = t.array.size + 1 := by rw [harray, Array.size_push]
  have hle : u.array.size ≤ lastPosition := by omega
  by_cases hk : ∃ j < u.array.size, k = positionKey (j + 1)
  · obtain ⟨j, hj, rfl⟩ := hk
    rw [getKey_array hle hj, harray, Array.getD_eq_getD_getElem?, Array.getElem?_push]
    by_cases hlast : j = t.array.size
    · rw [if_pos hlast, if_pos (by rw [hlast])]
      rfl
    · rw [if_neg hlast, if_neg, getKey_array (Nat.le_of_lt hlt) (by omega),
        Array.getD_eq_getD_getElem?]
      intro heq
      exact hlast (Nat.succ.inj (positionKey_inj (by omega) hlt heq))
  · have hk : ∀ j < u.array.size, k ≠ positionKey (j + 1) := fun j hj heq => hk ⟨j, hj, heq⟩
    have hlast := hk t.array.size (by omega)
    rw [getKey_node hle hk, if_neg hlast, hother k hlast,
      getKey_node (Nat.le_of_lt hlt) fun j hj => hk j (by omega)]

theorem migrate_succ (fuel : Nat) (t : Table) :
    t.migrate (fuel + 1) =
      if lastPosition ≤ t.array.size then t
      else
        match t.index[positionKey (t.array.size + 1)]? with
        | none => t
        | some i =>
          let v := (t.nodes.getD i ⟨none, .nil⟩).value
          let t' := { t with index := t.index.erase (positionKey (t.array.size + 1)) }
          if v.isNil then
            { t' with nodes := t.nodes.modify i fun node => { node with key := none } }
          else
            migrate fuel { t' with
              nodes := t.nodes.modify i fun _ => ⟨none, .nil⟩
              array := t.array.push v
              tombstones := t.tombstones + 1 } := rfl

/-- A node without a value only loses its key. -/
theorem modify_key_eq {nodes : Array Node} {key : Option Key} {i : Nat}
    (hi : nodes[i]? = some ⟨key, .nil⟩) :
    nodes.modify i (fun node => { node with key := none }) = nodes.modify i fun _ => ⟨none, .nil⟩ := by
  apply Array.ext_getElem?
  intro j
  rw [Array.getElem?_modify, Array.getElem?_modify]
  split
  next hij =>
    subst hij
    rw [hi]
    rfl
  next => rfl

/-- A node that continues the array moves into it; a node without a value is given up. -/
theorem Dense.migrate (fuel : Nat) (h : Dense t) (hfuel : t.index.size ≤ fuel) :
    Valid (t.migrate fuel) ∧ ∀ k, (t.migrate fuel).getKey k = t.getKey k := by
  induction fuel generalizing t with
  | zero =>
    have hempty : t.index.isEmpty = true := by
      rw [Std.HashMap.isEmpty_eq_size_eq_zero]
      exact beq_iff_eq.mpr (Nat.le_zero.mp hfuel)
    exact ⟨{ h with ends := fun _ => Std.HashMap.getElem?_of_isEmpty hempty }, fun _ => rfl⟩
  | succ fuel ih =>
    rw [migrate_succ]
    split
    next hfull => exact ⟨{ h with ends := fun hlt => absurd hlt (Nat.not_lt.mpr hfull) }, fun _ => rfl⟩
    next hfull =>
      have hlt : t.array.size < lastPosition := Nat.lt_of_not_le hfull
      have hinside : ∀ p ≤ t.array.size, positionKey p ≠ positionKey (t.array.size + 1) :=
        fun p hp heq => by
          have := positionKey_inj (by omega) hlt heq
          omega
      split
      next hnone => exact ⟨{ h with ends := fun _ => hnone }, fun _ => rfl⟩
      next i hi =>
        have hnode := h.indexed.node hi
        have herase := h.indexed.erase hi
        have hlook := h.indexed.lookup_erase hi
        have hget : ∀ k : Key, k ≠ positionKey (t.array.size + 1) →
            (t.index.erase (positionKey (t.array.size + 1)))[k]? = t.index[k]? := by
          intro k hk
          rw [Std.HashMap.getElem?_erase, if_neg fun hb => hk (eq_of_beq hb).symm]
        have hgone : (t.index.erase (positionKey (t.array.size + 1)))[positionKey
            (t.array.size + 1)]? = none := Std.HashMap.getElem?_erase_self
        have hbehind : t.getKey (positionKey (t.array.size + 1)) =
            lookup t.nodes t.index (positionKey (t.array.size + 1)) :=
          getKey_node h.size_le fun n hn => (hinside (n + 1) hn).symm
        rw [Array.getD_eq_getD_getElem?, hnode, Option.getD_some]
        dsimp only
        generalize lookup t.nodes t.index (positionKey (t.array.size + 1)) = v at hnode hbehind ⊢
        split
        next hnil =>
          cases Value.isNil_iff.mp hnil
          rw [modify_key_eq hnode]
          refine ⟨{ indexed := herase, whole := h.whole, size_le := h.size_le,
                    ends := fun _ => hgone,
                    apart := fun p h1 hp => (hget _ (hinside p hp)).trans (h.apart p h1 hp) },
            fun k => ?_⟩
          by_cases hk : k = positionKey (t.array.size + 1)
          · subst hk
            rw [hbehind]
            exact (getKey_node (t := { t with
              nodes := t.nodes.modify i fun _ => ⟨none, .nil⟩
              index := t.index.erase (positionKey (t.array.size + 1)) }) h.size_le
              fun n hn => (hinside (n + 1) hn).symm).trans ((hlook _).trans (if_pos rfl))
          · exact getKey_congr h.size_le h.size_le rfl (fun _ _ _ => rfl) fun _ =>
              (hlook k).trans (if_neg hk)
        next hnil =>
          have hdense := h.push (u := { t with
            nodes := t.nodes.modify i fun _ => ⟨none, .nil⟩
            index := t.index.erase (positionKey (t.array.size + 1))
            array := t.array.push v
            tombstones := t.tombstones + 1 }) (fun heq => hnil (Value.isNil_iff.mpr heq)) hlt rfl
            herase hgone hget
          have hsmaller : (t.index.erase (positionKey (t.array.size + 1))).size ≤ fuel := by
            rw [Std.HashMap.size_erase, if_pos]
            · exact Nat.sub_le_of_le_add hfuel
            · rw [Std.HashMap.mem_iff_isSome_getElem?]
              exact Option.isSome_of_eq_some hi
          obtain ⟨hvalid, hsame⟩ := ih hdense hsmaller
          refine ⟨hvalid, fun k => (hsame k).trans ?_⟩
          rw [getKey_push hlt rfl fun k hk => (hlook k).trans (if_neg hk)]
          split
          next hk => rw [hk, hbehind]
          next => rfl

theorem migrate_detached (fuel : Nat) (t : Table) : (t.migrate fuel).detached = t.detached := by
  induction fuel generalizing t with
  | zero => rfl
  | succ fuel ih =>
    rw [migrate_succ]
    split
    · rfl
    · split
      · rfl
      · dsimp only
        split
        · rfl
        · exact ih _

theorem append_eq (t : Table) (v : Value) :
    ∃ d ≤ t.detached, t.append v =
      { Table.migrate t.nodes.size { t with array := t.array.push v } with detached := d } := by
  have hmoved := migrate_detached t.nodes.size { t with array := t.array.push v }
  unfold Table.append
  dsimp only at hmoved ⊢
  generalize Table.migrate t.nodes.size _ = moved at hmoved ⊢
  split
  next => exact ⟨0, Nat.zero_le _, rfl⟩
  next => exact ⟨moved.detached, Nat.le_of_eq hmoved, rfl⟩

theorem Valid.append (h : Valid t) (hv : v ≠ .nil) (hlt : t.array.size < lastPosition) :
    Valid (t.append v) ∧
      ∀ k, (t.append v).getKey k =
        if k = positionKey (t.array.size + 1) then v else t.getKey k := by
  have hdense := h.toDense.push (u := { t with array := t.array.push v }) hv hlt rfl h.indexed
    (h.ends hlt) fun _ _ => rfl
  obtain ⟨hvalid, hsame⟩ := hdense.migrate t.nodes.size h.indexed.size
  obtain ⟨d, -, hd⟩ := append_eq t v
  rw [hd]
  refine ⟨⟨⟨hvalid.indexed, hvalid.whole, hvalid.size_le, hvalid.apart⟩, hvalid.ends⟩, fun k => ?_⟩
  exact (hsame k).trans
    (getKey_push (u := { t with array := t.array.push v }) hlt rfl (fun _ _ => rfl) k)

end append

/-! ## Assignment -/

/-- A key that is neither in the array nor the one behind it. -/
theorem Valid.setNode (h : Valid t) (hk : ∀ n < t.array.size, k ≠ positionKey (n + 1))
    (hend : t.array.size < lastPosition → k ≠ positionKey (t.array.size + 1)) (v : Value) :
    Valid (t.setNode k v) ∧
      ∀ k', (t.setNode k v).getKey k' = if k' = k then v else t.getKey k' := by
  have houtside : ∀ t' : Table, t'.array = t.array → t'.getKey k = lookup t'.nodes t'.index k :=
    fun t' heq => getKey_node (heq ▸ h.size_le) fun n hn => hk n (heq ▸ hn)
  -- the array stays as it is, so only the nodes have to be looked at
  have hresult : ∀ t' : Table, t'.array = t.array → Indexed t'.nodes t'.index →
      (∀ k' : Key, k' ≠ k → t.index[k']? = none → t'.index[k']? = none) →
      (∀ k', lookup t'.nodes t'.index k' = if k' = k then v else lookup t.nodes t.index k') →
      Valid t' ∧ ∀ k', t'.getKey k' = if k' = k then v else t.getKey k' := by
    intro t' harray hindexed hnone hlook
    refine ⟨{ indexed := hindexed, whole := harray ▸ h.whole, size_le := harray ▸ h.size_le,
              apart := fun p h1 hp => ?_, ends := fun hlt => ?_ }, fun k' => ?_⟩
    · rw [harray] at hp
      obtain ⟨n, rfl⟩ := Nat.exists_eq_add_of_le' h1
      exact hnone _ (hk n (by omega)).symm (h.apart _ h1 hp)
    · rw [harray] at hlt ⊢
      exact hnone _ (hend hlt).symm (h.ends hlt)
    · split
      next hkk =>
        subst hkk
        rw [houtside t' harray, hlook, if_pos rfl]
      next hkk =>
        refine getKey_congr h.size_le (harray ▸ h.size_le) (by rw [harray])
          (fun _ _ _ => by rw [harray]) fun _ => ?_
        rw [hlook, if_neg hkk]
  unfold Table.setNode
  split
  next i hi =>
    exact hresult _ rfl (h.indexed.modify hi v) (fun _ _ hnone => hnone)
      (h.indexed.lookup_modify hi v)
  next hi =>
    split
    next hnil =>
      refine hresult t rfl h.indexed (fun _ _ hnone => hnone) fun k' => ?_
      split
      next hkk => rw [hkk, lookup_none hi, Value.isNil_iff.mp hnil]
      next => rfl
    next =>
      obtain ⟨hindexed, hlook, hnone⟩ := h.indexed.purge
      refine hresult _ (purge_array t) (hindexed.push (hnone k hi) v) (fun k' hkk hk' => ?_)
        fun k' => ?_
      · exact (Std.HashMap.getElem?_insert.trans (if_neg fun hb => hkk (eq_of_beq hb).symm)).trans
          (hnone k' hk')
      · rw [hindexed.lookup_push v k', hlook]

theorem setKey_eq (t : Table) (k : Key) (v : Value) :
    t.setKey k v =
      match t.place? k with
      | some n =>
        if v.isNil then t.truncate n else { t with array := t.array.setIfInBounds n v }
      | none =>
        if k = positionKey (t.array.size + 1) ∧ t.array.size < lastPosition then
          if v.isNil then t else t.append v
        else t.setNode k v := by
  cases k with
  | int i =>
    have hbehind : (1 ≤ i && i.toUInt64.toNat == t.array.size + 1) = true ↔
        Key.int i = positionKey (t.array.size + 1) ∧ t.array.size < lastPosition := by
      rw [Bool.and_eq_true, decide_eq_true_iff, beq_iff_eq]
      constructor
      · rintro ⟨h1, hi⟩
        obtain ⟨p, hp1, hp, rfl⟩ := exists_position h1
        rw [toNat_ofNat hp] at hi
        exact ⟨by rw [← hi]; rfl, by omega⟩
      · rintro ⟨hi, hlt⟩
        cases hi
        exact ⟨one_le_ofNat (Nat.succ_pos _) hlt, toNat_ofNat hlt⟩
    simp only [setKey, setInt, place?]
    cases t.slot? i with
    | some n => rfl
    | none => simp only [hbehind]
  | _ =>
    rw [if_neg]
    · rfl
    · rintro ⟨hi, -⟩
      cases hi

/-- An assignment keeps the layout, and changes the value of its key and of no other. -/
theorem Valid.assign (h : Valid t) (k : Key) (v : Value) :
    Valid (t.setKey k v) ∧ ∀ k', (t.setKey k v).getKey k' = if k' = k then v else t.getKey k' := by
  rw [setKey_eq]
  cases hplace : t.place? k with
  | some n =>
    obtain ⟨hn, rfl⟩ := (place?_eq_some_iff h.size_le).mp hplace
    dsimp only
    split
    next hnil =>
      rw [Value.isNil_iff.mp hnil]
      exact ⟨h.truncate hn, getKey_truncate h hn⟩
    next hnil =>
      exact ⟨h.overwrite n fun heq => hnil (Value.isNil_iff.mpr heq), getKey_overwrite h hn v⟩
  | none =>
    have hout := (place?_eq_none_iff h.size_le).mp hplace
    dsimp only
    split
    next hbehind =>
      obtain ⟨rfl, hlt⟩ := hbehind
      split
      next hnil =>
        refine ⟨h, fun k' => ?_⟩
        split
        next hkk =>
          rw [hkk, getKey_node h.size_le hout, lookup_none (h.ends hlt), Value.isNil_iff.mp hnil]
        next => rfl
      next hnil => exact h.append (fun heq => hnil (Value.isNil_iff.mpr heq)) hlt
    next hbehind =>
      exact h.setNode hout (fun hlt heq => hbehind ⟨heq, hlt⟩) v

end Table
end LuaMachine
