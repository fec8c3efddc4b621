import LuaMachine.Proofs.Table.Map
import Mathlib.Data.List.Perm.Subperm
/-! # Traversing a table that is being cleared

Each key of a table has a rank: the positions up to `indexed` come first, in order, and the nodes
follow as they lie. A traversal goes from a key to the key of the next rank that has a value. Clearing
keys and replacing values during a traversal leaves all ranks as they are.

* `Table.rank`: when a key is reached.
* `Table.Valid.next`: what follows a key.
* `Table.Valid.rank_assign`: what may be assigned during a traversal changes no rank.
* `Table.Traversal`: a traversal with assignments between its steps.
* `Table.traversal_complete`: what a traversal gives, and that it ends.
-/
set_option autoImplicit false

namespace LuaMachine
namespace Table

/-! ## Ranks -/

/-- The position that a key stands for. -/
def position? : Key → Option Nat
  | .int i => if 1 ≤ i then some i.toUInt64.toNat else none
  | _ => none

theorem position?_eq_some_iff {k : Key} {p : Nat} :
    position? k = some p ↔ 1 ≤ p ∧ p ≤ lastPosition ∧ k = positionKey p := by
  constructor
  · intro h
    cases k with
    | int i =>
      rw [position?] at h
      split at h
      next hi =>
        obtain ⟨q, h1, hq, rfl⟩ := exists_position hi
        rw [toNat_ofNat hq] at h
        cases h
        exact ⟨h1, hq, rfl⟩
      next => cases h
    | _ => cases h
  · rintro ⟨h1, hp, rfl⟩
    rw [positionKey, position?, if_pos (one_le_ofNat h1 hp), toNat_ofNat hp]

/-- The key is one of the positions that are traversed by index. -/
def indexedPosition? (t : Table) (k : Key) : Option Nat :=
  (position? k).filter fun p => p ≤ t.indexed

theorem indexedPosition?_eq_some_iff {t : Table} {k : Key} {p : Nat} :
    t.indexedPosition? k = some p ↔
      1 ≤ p ∧ p ≤ lastPosition ∧ p ≤ t.indexed ∧ k = positionKey p := by
  rw [indexedPosition?, Option.filter_eq_some_iff, position?_eq_some_iff, decide_eq_true_iff]
  constructor
  · rintro ⟨⟨h1, hp, hk⟩, hle⟩
    exact ⟨h1, hp, hle, hk⟩
  · rintro ⟨h1, hp, hle, hk⟩
    exact ⟨⟨h1, hp, hk⟩, hle⟩

/-- When a traversal reaches a key: positions first, then the nodes as they lie. -/
def rank (t : Table) (k : Key) : Option Nat :=
  match t.indexedPosition? k with
  | some p => some p
  | none => (t.index[k]?).map fun i => t.indexed + 1 + i

variable {t : Table} {k k' : Key} {r : Nat}

theorem rank_position {p : Nat} (h1 : 1 ≤ p) (hp : p ≤ lastPosition) (hle : p ≤ t.indexed) :
    t.rank (positionKey p) = some p := by
  rw [rank, indexedPosition?_eq_some_iff.2 ⟨h1, hp, hle, rfl⟩]

theorem rank_node {i : Nat} (hk : t.indexedPosition? k = none) (hi : t.index[k]? = some i) :
    t.rank k = some (t.indexed + 1 + i) := by
  rw [rank, hk, hi]
  rfl

theorem rank_cases (h : t.rank k = some r) :
    (1 ≤ r ∧ r ≤ lastPosition ∧ r ≤ t.indexed ∧ k = positionKey r) ∨
      t.indexedPosition? k = none ∧ ∃ i, t.index[k]? = some i ∧ r = t.indexed + 1 + i := by
  unfold rank at h
  split at h
  next p hp =>
    cases h
    exact .inl (indexedPosition?_eq_some_iff.1 hp)
  next hp =>
    obtain ⟨i, hi, rfl⟩ := Option.map_eq_some_iff.mp h
    exact .inr ⟨hp, i, hi, rfl⟩

theorem rank_pos (h : t.rank k = some r) : 0 < r := by
  rcases rank_cases h with ⟨h1, -⟩ | ⟨-, i, -, rfl⟩ <;> omega

theorem Valid.rank_inj (ht : Valid t) (h : t.rank k = some r) (h' : t.rank k' = some r) : k = k' := by
  rcases rank_cases h with ⟨-, -, hle, rfl⟩ | ⟨-, i, hi, hr⟩
  · rcases rank_cases h' with ⟨-, -, -, rfl⟩ | ⟨-, i, -, hr⟩
    · rfl
    · omega
  · rcases rank_cases h' with ⟨-, -, hle, -⟩ | ⟨-, j, hj, hr'⟩
    · omega
    · cases (by omega : i = j)
      have hnode := ht.indexed.node hi
      rw [ht.indexed.node hj] at hnode
      cases hnode
      rfl

/-- Every key with a value has a rank. -/
theorem Valid.rank_of_value (ht : Valid t) (hk : t.getKey k ≠ .nil) : ∃ r, t.rank k = some r := by
  cases hp : t.indexedPosition? k with
  | some p => exact ⟨p, by rw [rank, hp]⟩
  | none =>
    have hout : ∀ n < t.array.size, k ≠ positionKey (n + 1) := by
      rintro n hn rfl
      have hsize := ht.size_le
      rw [indexedPosition?_eq_some_iff.2 ⟨Nat.succ_pos n, by omega,
        Nat.le_trans hn (Nat.le_max_left ..), rfl⟩] at hp
      cases hp
    rw [getKey_node ht.size_le hout] at hk
    cases hi : t.index[k]? with
    | some i => exact ⟨_, rank_node hp hi⟩
    | none => exact absurd (lookup_none hi) hk

/-! ## What follows -/

theorem nextIndexed_some (t : Table) (n i : Nat) {entry : Value × Value}
    (h : t.nextIndexed n i = some entry) :
    ∃ p, i < p ∧ p ≤ i + n ∧ entry = ((positionKey p).value, t.getKey (positionKey p)) ∧
      t.getKey (positionKey p) ≠ .nil ∧ ∀ q, i < q → q < p → t.getKey (positionKey q) = .nil := by
  induction n generalizing i with
  | zero => cases h
  | succ n ih =>
    rw [nextIndexed] at h
    split at h
    next hnil =>
      obtain ⟨p, hip, hp, hentry, hvalue, hnone⟩ := ih (i + 1) h
      refine ⟨p, by omega, by omega, hentry, hvalue, fun q hq hqp => ?_⟩
      by_cases hfirst : q = i + 1
      · rw [hfirst]
        exact Value.isNil_iff.mp hnil
      · exact hnone q (by omega) hqp
    next hnil =>
      cases h
      exact ⟨i + 1, by omega, by omega, rfl, fun heq => hnil (Value.isNil_iff.mpr heq),
        fun q hq hqp => by omega⟩

theorem nextIndexed_none (t : Table) (n i : Nat) (h : t.nextIndexed n i = none) :
    ∀ q, i < q → q ≤ i + n → t.getKey (positionKey q) = .nil := by
  induction n generalizing i with
  | zero => exact fun q hq hqi => by omega
  | succ n ih =>
    rw [nextIndexed] at h
    split at h
    next hnil =>
      intro q hq hqi
      by_cases hfirst : q = i + 1
      · rw [hfirst]
        exact Value.isNil_iff.mp hnil
      · exact ih (i + 1) h q (by omega) (by omega)
    next => cases h

/-- A node that a traversal comes to: it has a value and its key was not traversed by index. -/
def Visible (t : Table) (i : Nat) (k : Key) (v : Value) : Prop :=
  t.nodes[i]? = some ⟨some k, v⟩ ∧ v ≠ .nil ∧ t.wasIndexed k = false

theorem visible_iff {i : Nat} {node : Node} (hnode : t.nodes[i]? = some node) (v : Value) :
    t.Visible i k v ↔
      node = ⟨some k, v⟩ ∧ (node.value.isNil || t.wasIndexed k) = false := by
  rw [Visible, hnode, Option.some.injEq, Bool.or_eq_false_iff, Value.isNil_eq_false_iff]
  constructor
  · rintro ⟨rfl, hv, hw⟩
    exact ⟨rfl, hv, hw⟩
  · rintro ⟨rfl, hv, hw⟩
    exact ⟨rfl, hv, hw⟩

theorem nextNode_some (t : Table) (n i : Nat) {entry : Value × Value}
    (h : t.nextNode n i = some entry) :
    ∃ j k v, i ≤ j ∧ t.Visible j k v ∧ entry = (k.value, v) ∧
      ∀ j' k' v', i ≤ j' → j' < j → ¬ t.Visible j' k' v' := by
  induction n generalizing i with
  | zero => cases h
  | succ n ih =>
    -- a node that is passed over is not visible
    have hpass : (∀ k v, ¬ t.Visible i k v) → t.nextNode n (i + 1) = some entry →
        ∃ j k v, i ≤ j ∧ t.Visible j k v ∧ entry = (k.value, v) ∧
          ∀ j' k' v', i ≤ j' → j' < j → ¬ t.Visible j' k' v' := by
      intro hi hrest
      obtain ⟨j, k, v, hj, hvisible, hentry, hnone⟩ := ih (i + 1) hrest
      refine ⟨j, k, v, by omega, hvisible, hentry, fun j' k' v' hj' hlt => ?_⟩
      by_cases hfirst : j' = i
      · rw [hfirst]
        exact hi k' v'
      · exact hnone j' k' v' (by omega) hlt
    rw [nextNode] at h
    split at h
    next => cases h
    next node hnode =>
      split at h
      next hkey =>
        refine hpass (fun k v hv => ?_) h
        rw [((visible_iff hnode v).mp hv).1] at hkey
        cases hkey
      next k hkey =>
        split at h
        next hskip =>
          refine hpass (fun k' v hv => ?_) h
          obtain ⟨rfl, hshown⟩ := (visible_iff hnode v).mp hv
          cases hkey
          rw [hskip] at hshown
          cases hshown
        next hskip =>
          cases h
          refine ⟨i, k, node.value, Nat.le_refl i, (visible_iff hnode _).mpr ⟨?_, ?_⟩, rfl,
            fun j' _ _ hj' hlt => by omega⟩
          · cases node
            cases hkey
            rfl
          · exact Bool.eq_false_iff.mpr hskip

theorem nextNode_none (t : Table) (n i : Nat) (hn : t.nodes.size ≤ i + n)
    (h : t.nextNode n i = none) : ∀ j k v, i ≤ j → ¬ t.Visible j k v := by
  induction n generalizing i with
  | zero =>
    rintro j k v hj ⟨hnode, -⟩
    have := (Array.getElem?_eq_some_iff.mp hnode).1
    omega
  | succ n ih =>
    intro j k v hj hv
    have hlt := (Array.getElem?_eq_some_iff.mp hv.1).1
    rw [nextNode] at h
    split at h
    next hnode =>
      rw [Array.getElem?_eq_none_iff] at hnode
      omega
    next node hnode =>
      by_cases hfirst : j = i
      · subst hfirst
        obtain ⟨rfl, hshown⟩ := (visible_iff hnode v).mp hv
        dsimp only at h hshown
        rw [if_neg (Bool.eq_false_iff.mp hshown)] at h
        cases h
      · split at h
        next => exact ih (i + 1) (by omega) h j k v (by omega) hv
        next =>
          split at h
          next => exact ih (i + 1) (by omega) h j k v (by omega) hv
          next => cases h

/-! ## The next key -/

/-- What follows the key of rank `r`: the key with the least rank beyond it among those with a
value, and its value. -/
def Succeeds (t : Table) (r : Nat) : Option (Value × Value) → Prop
  | some entry => ∃ k s, entry = (k.value, t.getKey k) ∧ t.getKey k ≠ .nil ∧ t.rank k = some s ∧
      r < s ∧ ∀ k' s', t.rank k' = some s' → t.getKey k' ≠ .nil → r < s' → s ≤ s'
  | none => ∀ k s, t.rank k = some s → t.getKey k ≠ .nil → s ≤ r

/-- The layout of a table that is traversed: all positions that are traversed by index are keys, and
keys with a value are in normal form. -/
structure Traversable (t : Table) : Prop extends Valid t where
  detached_le : t.detached ≤ lastPosition
  normal : ∀ k, t.getKey k ≠ .nil → k.value.key? = some k

theorem Traversable.indexed_le (ht : Traversable t) : t.indexed ≤ lastPosition :=
  Nat.max_le.mpr ⟨ht.size_le, ht.detached_le⟩

theorem wasIndexed_iff : t.wasIndexed k = true ↔ ∃ p, position? k = some p ∧ p ≤ t.detached := by
  cases k with
  | int i =>
    rw [wasIndexed, Bool.and_eq_true, decide_eq_true_iff, decide_eq_true_iff, position?]
    constructor
    · rintro ⟨hi, hle⟩
      exact ⟨_, if_pos hi, hle⟩
    · rintro ⟨p, hp, hle⟩
      split at hp
      next hi =>
        cases hp
        exact ⟨hi, hle⟩
      next => cases hp
  | _ => simp [wasIndexed, position?]

/-- The nodes that a traversal comes to are those whose key is no position that is traversed by
index. -/
theorem Traversable.visible_iff_rank (ht : Traversable t) {i : Nat} {v : Value} :
    t.Visible i k v ↔ t.getKey k = v ∧ v ≠ .nil ∧ t.rank k = some (t.indexed + 1 + i) := by
  constructor
  · rintro ⟨hnode, hv, hw⟩
    obtain ⟨hi, hlook⟩ := ht.indexed.eq_of_node hnode
    have hout : ∀ n < t.array.size, k ≠ positionKey (n + 1) := by
      rintro n hn rfl
      rw [ht.apart (n + 1) (Nat.succ_pos n) hn] at hi
      cases hi
    have hnone : t.indexedPosition? k = none := by
      refine Option.eq_none_iff_forall_ne_some.mpr fun p hp => ?_
      obtain ⟨h1, hlast, hle, rfl⟩ := indexedPosition?_eq_some_iff.mp hp
      rcases Nat.lt_or_ge t.array.size p with hsize | hsize
      · rw [wasIndexed_iff.2 ⟨p, position?_eq_some_iff.mpr ⟨h1, hlast, rfl⟩, ?_⟩] at hw
        · cases hw
        · have : t.indexed = max t.array.size t.detached := rfl
          omega
      · exact hout (p - 1) (by omega) (by rw [Nat.sub_add_cancel h1])
    exact ⟨(getKey_node ht.size_le hout).trans hlook, hv, rank_node hnone hi⟩
  · rintro ⟨hk, hv, hr⟩
    rcases rank_cases hr with ⟨-, -, hle, -⟩ | ⟨hnone, j, hj, hij⟩
    · omega
    · cases (by omega : i = j)
      have hpos : ∀ p, 1 ≤ p → p ≤ lastPosition → k = positionKey p → t.indexed < p := by
        rintro p h1 hp rfl
        refine Nat.lt_of_not_le fun hle => ?_
        rw [indexedPosition?_eq_some_iff.mpr ⟨h1, hp, hle, rfl⟩] at hnone
        cases hnone
      have hsize := ht.size_le
      have hindexed : t.indexed = max t.array.size t.detached := rfl
      rw [getKey_node ht.size_le fun n hn heq => ?_] at hk
      · refine ⟨hk ▸ ht.indexed.node hj, hv, Bool.eq_false_iff.mpr fun hw => ?_⟩
        obtain ⟨p, hp, hle⟩ := wasIndexed_iff.1 hw
        obtain ⟨h1, hp, heq⟩ := position?_eq_some_iff.mp hp
        have := hpos p h1 hp heq
        omega
      · have := hpos (n + 1) (Nat.succ_pos n) (by omega) heq
        omega

/-- From a node on, the nodes behind it follow. -/
theorem Traversable.nextNode_succeeds (ht : Traversable t) {n i : Nat} (hn : t.nodes.size ≤ i + n)
    (hr : r ≤ t.indexed + i)
    (hbefore : ∀ k s, t.rank k = some s → t.getKey k ≠ .nil → r < s → t.indexed + i < s) :
    t.Succeeds r (t.nextNode n i) := by
  cases hnext : t.nextNode n i with
  | some entry =>
    obtain ⟨j, k, v, hj, hvisible, hentry, hfirst⟩ := nextNode_some t n i hnext
    obtain ⟨hk, hv, hrank⟩ := ht.visible_iff_rank.mp hvisible
    subst hk
    refine ⟨k, _, hentry, hv, hrank, by omega, fun k' s' hs' hk' hrs => ?_⟩
    have hlt := hbefore k' s' hs' hk' hrs
    rcases rank_cases hs' with ⟨-, -, hle, -⟩ | ⟨-, j', -, rfl⟩
    · omega
    · refine Nat.le_of_not_lt fun hlt' => ?_
      exact hfirst j' k' _ (by omega) (by omega) (ht.visible_iff_rank.mpr ⟨rfl, hk', hs'⟩)
  | none =>
    intro k s hs hk
    refine Nat.le_of_not_lt fun hrs => ?_
    have hlt := hbefore k s hs hk hrs
    rcases rank_cases hs with ⟨-, -, hle, -⟩ | ⟨-, j, -, rfl⟩
    · omega
    · exact nextNode_none t n i hn hnext j k _ (by omega) (ht.visible_iff_rank.mpr ⟨rfl, hk, hs⟩)

/-- From a position on, the positions behind it follow, and then the nodes. -/
theorem Traversable.after_succeeds (ht : Traversable t) (hr : r ≤ t.indexed) :
    t.Succeeds r (t.after r) := by
  have hindexed := ht.indexed_le
  unfold after
  split
  next entry hentry =>
    obtain ⟨p, hrp, hp, rfl, hv, hfirst⟩ := nextIndexed_some t _ _ hentry
    refine ⟨positionKey p, p, rfl, hv, rank_position (by omega) (by omega) (by omega), hrp,
      fun k' s' hs' hk' hrs => ?_⟩
    rcases rank_cases hs' with ⟨-, -, -, rfl⟩ | ⟨-, j, -, rfl⟩
    · refine Nat.le_of_not_lt fun hlt => hk' (hfirst s' hrs hlt)
    · omega
  next hnone =>
    refine ht.nextNode_succeeds (by omega) (by omega) fun k s hs hk hrs => ?_
    rcases rank_cases hs with ⟨-, -, hle, rfl⟩ | ⟨-, j, -, rfl⟩
    · exact absurd (nextIndexed_none t _ _ hnone s hrs (by omega)) hk
    · omega

theorem indexedPosition?_eq (t : Table) (k : Key) :
    t.indexedPosition? k =
      match k with
      | .int i => if 1 ≤ i && i.toUInt64.toNat ≤ t.indexed then some i.toUInt64.toNat else none
      | _ => none := by
  cases k with
  | int i =>
    simp only [indexedPosition?, position?, Bool.and_eq_true, decide_eq_true_iff]
    by_cases hi : 1 ≤ i
    · simp only [hi, if_true, true_and, Option.filter, decide_eq_true_iff]
    · simp only [hi, if_false, false_and, Option.filter]
  | _ => rfl

theorem next_eq (t : Table) {k : Value} {key : Key} (hk : k.key? = some key) :
    t.next k =
      match t.indexedPosition? key with
      | some p => .ok (t.after p)
      | none =>
        match t.index[key]? with
        | some i => .ok (t.nextNode (t.nodes.size - (i + 1)) (i + 1))
        | none => .error .unknownKey := by
  rw [indexedPosition?_eq]
  cases k with
  | nil => cases hk
  | _ =>
    unfold Table.next
    dsimp only
    generalize Value.key? _ = o at hk
    subst hk
    cases key <;> rfl

/-- A traversal comes to the start before all keys, and to a key at its rank. -/
def Reached (t : Table) (k : Value) (r : Nat) : Prop :=
  k = .nil ∧ r = 0 ∨ ∃ key : Key, k.key? = some key ∧ t.rank key = some r

/-- A traversal goes on from every key that has a rank. -/
theorem Traversable.next (ht : Traversable t) {k : Value} (hk : t.Reached k r) :
    ∃ entry, t.next k = .ok entry ∧ t.Succeeds r entry := by
  rcases hk with ⟨rfl, rfl⟩ | ⟨key, hkey, hr⟩
  · exact ⟨_, rfl, ht.after_succeeds (Nat.zero_le _)⟩
  · rw [next_eq t hkey]
    rcases rank_cases hr with ⟨h1, hp, hle, rfl⟩ | ⟨hnone, i, hi, rfl⟩
    · rw [indexedPosition?_eq_some_iff.mpr ⟨h1, hp, hle, rfl⟩]
      exact ⟨_, rfl, ht.after_succeeds hle⟩
    · rw [hnone, hi]
      exact ⟨_, rfl, ht.nextNode_succeeds (by omega) (by omega) fun k' s hs _ hrs => by omega⟩

/-! ## Assignments -/

theorem Valid.detached_le_setKey (ht : Valid t) (hle : t.detached ≤ lastPosition) (k : Key)
    (v : Value) : (t.setKey k v).detached ≤ lastPosition := by
  rw [setKey_eq]
  cases t.place? k with
  | some n =>
    dsimp only
    split
    next => exact Nat.max_le.mpr ⟨hle, ht.size_le⟩
    next => exact hle
  | none =>
    dsimp only
    split
    next =>
      split
      next => exact hle
      next =>
        obtain ⟨d, hd, heq⟩ := append_eq t v
        rw [heq]
        exact Nat.le_trans hd hle
    next =>
      unfold Table.setNode
      split
      next => exact hle
      next =>
        split
        next => exact hle
        next =>
          show t.purge.detached ≤ lastPosition
          unfold Table.purge
          split
          next => exact hle
          next => exact Nat.zero_le _

theorem Traversable.setKey (ht : Traversable t) (hk : k.value.key? = some k) (v : Value) :
    Traversable (t.setKey k v) where
  toValid := (ht.assign k v).1
  detached_le := ht.detached_le_setKey ht.detached_le k v
  normal k' hk' := by
    rw [(ht.assign k v).2 k'] at hk'
    split at hk'
    next heq => rw [heq, hk]
    next => exact ht.normal k' hk'

theorem Traversable.assign_traversable (ht : Traversable t) (s : Value × Value) :
    Traversable (t.assign s) := by
  obtain ⟨k, v⟩ := s
  cases hk : k.key? with
  | some key =>
    rw [assign_of_key? t hk]
    exact ht.setKey (Key.key?_value hk) v
  | none =>
    rw [assign_of_no_key t hk]
    exact ht

theorem traversable_ofSets (sets : List (Value × Value)) : Traversable (ofSets sets) := by
  induction sets using List.reverseRecOn with
  | nil =>
    refine ⟨Valid.empty, Nat.zero_le _, fun k hk => ?_⟩
    rw [getKey_node (t := ofSets []) (Nat.zero_le _) fun n hn => absurd hn (Nat.not_lt_zero n)] at hk
    exact absurd (lookup_none Std.HashMap.getElem?_empty) hk
  | append_singleton sets s ih =>
    rw [ofSets_concat]
    exact ih.assign_traversable s

/-! ## Assignments during a traversal -/

/-- An assignment that removes a key or replaces a value, and adds no key, moves no key to another
rank. -/
theorem Valid.edit (ht : Valid t) {v : Value} (hedit : v = .nil ∨ t.getKey k ≠ .nil) :
    (t.setKey k v).indexed = t.indexed ∧
      ∀ k' : Key, t.indexedPosition? k' = none → (t.setKey k v).index[k']? = t.index[k']? := by
  have hnil : v ≠ .nil → lookup t.nodes t.index k = .nil → ∃ n < t.array.size, k = positionKey (n + 1) := by
    intro hv hlook
    refine Classical.byContradiction fun hout => ?_
    rcases hedit with hedit | hedit
    · exact hv hedit
    · rw [getKey_node ht.size_le fun n hn heq => hout ⟨n, hn, heq⟩] at hedit
      exact hedit hlook
  rw [setKey_eq]
  cases hplace : t.place? k with
  | some n =>
    obtain ⟨hn, rfl⟩ := (place?_eq_some_iff ht.size_le).mp hplace
    dsimp only
    split
    next =>
      have hsize := truncate_size hn
      refine ⟨?_, fun k' hk' => ?_⟩
      · show max (t.truncate n).array.size (max t.detached t.array.size) = max _ _
        omega
      · refine ((ht.detached (n := n)).2.2 k' fun j _ hj heq => ?_).1
        have hle := ht.size_le
        rw [indexedPosition?_eq_some_iff.mpr
          ⟨Nat.succ_pos j, by omega, Nat.le_trans hj (Nat.le_max_left ..), heq⟩] at hk'
        cases hk'
    next =>
      refine ⟨?_, fun k' _ => rfl⟩
      show max (t.array.setIfInBounds n v).size t.detached = _
      rw [Array.size_setIfInBounds]
      rfl
  | none =>
    have hout := (place?_eq_none_iff ht.size_le).mp hplace
    dsimp only
    split
    next hbehind =>
      obtain ⟨rfl, hlt⟩ := hbehind
      split
      next => exact ⟨rfl, fun _ _ => rfl⟩
      next hv =>
        obtain ⟨n, hn, heq⟩ := hnil (fun heq => hv (Value.isNil_iff.mpr heq))
          (lookup_none (ht.ends hlt))
        exact absurd heq (hout n hn)
    next =>
      unfold Table.setNode
      split
      next => exact ⟨rfl, fun _ _ => rfl⟩
      next hnone =>
        split
        next => exact ⟨rfl, fun _ _ => rfl⟩
        next hv =>
          obtain ⟨n, hn, heq⟩ := hnil (fun heq => hv (Value.isNil_iff.mpr heq)) (lookup_none hnone)
          exact absurd heq (hout n hn)

theorem Valid.rank_edit (ht : Valid t) {v : Value} (hedit : v = .nil ∨ t.getKey k ≠ .nil)
    (k' : Key) : (t.setKey k v).rank k' = t.rank k' := by
  obtain ⟨hindexed, hindex⟩ := ht.edit hedit
  have hposition : (t.setKey k v).indexedPosition? k' = t.indexedPosition? k' := by
    rw [indexedPosition?, hindexed]
    rfl
  rw [rank, rank, hposition, hindexed]
  cases hp : t.indexedPosition? k' with
  | some p => rfl
  | none => rw [hindex k' hp]

/-! ## A traversal -/

/-- A traversal of the table `t₀` that gave the entries `seen`, the last of them with the key `k`
(nil at the start); the table has become `t` by assignments between the steps. These store nil, or
a value under a key that has one. -/
inductive Traversal (t₀ : Table) : Table → Value → List (Value × Value) → Prop where
  | start : Traversal t₀ t₀ .nil []
  | assign {t : Table} {k : Value} {seen : List (Value × Value)} (key v : Value)
      (h : Traversal t₀ t k seen) (hedit : v = .nil ∨ t.get key ≠ .nil) :
      Traversal t₀ (t.assign (key, v)) k seen
  | visit {t : Table} {k key v : Value} {seen : List (Value × Value)} (h : Traversal t₀ t k seen)
      (hnext : t.next k = .ok (some (key, v))) : Traversal t₀ t key (seen ++ [(key, v)])

/-- What holds at each moment of a traversal; `trail` are the keys that it came to, with their
ranks, and `r` is the rank that it has reached. -/
structure Progress (t₀ t : Table) (k : Value) (seen : List (Value × Value)) (trail : List (Key × Nat))
    (r : Nat) : Prop where
  traversable : Traversable t
  ranks : ∀ k, t.rank k = t₀.rank k
  values : ∀ k, t.getKey k ≠ .nil → t₀.getKey k ≠ .nil
  reached : t.Reached k r
  keys : seen.map Prod.fst = trail.map fun e => e.1.value
  ranked : ∀ e ∈ trail, t₀.rank e.1 = some e.2 ∧ e.2 ≤ r ∧ e.1.value.key? = some e.1
  increasing : trail.Pairwise fun a b => a.2 < b.2
  complete : ∀ k s, t.rank k = some s → t.getKey k ≠ .nil → s ≤ r → (k, s) ∈ trail

section progress

variable {t₀ : Table} {key : Value} {seen : List (Value × Value)} {trail : List (Key × Nat)}

theorem Progress.assign {k : Value} (h : Progress t₀ t k seen trail r) {v : Value}
    (hedit : v = .nil ∨ t.get key ≠ .nil) : Progress t₀ (t.assign (key, v)) k seen trail r := by
  cases hkey : key.key? with
  | none =>
    rw [assign_of_no_key t hkey]
    exact h
  | some k' =>
    rw [get_of_key? t hkey] at hedit
    rw [assign_of_key? t hkey]
    have hrank := h.traversable.rank_edit hedit
    have hkept : ∀ k, (t.setKey k' v).getKey k ≠ .nil → t.getKey k ≠ .nil := by
      intro k hk
      rw [(h.traversable.assign k' v).2 k] at hk
      split at hk
      next heq =>
        subst heq
        exact hedit.resolve_left hk
      next => exact hk
    refine { h with
      traversable := h.traversable.setKey (Key.key?_value hkey) v
      ranks := fun k => (hrank k).trans (h.ranks k)
      values := fun k hk => h.values k (hkept k hk)
      reached := h.reached.imp_right ?_
      complete := fun k s hs hk hle => h.complete k s ((hrank k).symm.trans hs) (hkept k hk) hle }
    rintro ⟨k, hk, hr⟩
    exact ⟨k, hk, (hrank k).trans hr⟩

/-- The next entry is of a key that the traversal has not come to yet. -/
theorem Progress.visit {k v : Value} (h : Progress t₀ t k seen trail r)
    (hnext : t.next k = .ok (some (key, v))) :
    ∃ k' s, key = k'.value ∧ key.key? = some k' ∧ v = t.getKey k' ∧ v ≠ .nil ∧ r < s ∧
      Progress t₀ t key (seen ++ [(key, v)]) (trail ++ [(k', s)]) s := by
  obtain ⟨entry, hentry, hsucceeds⟩ := h.traversable.next h.reached
  rw [hentry] at hnext
  cases hnext
  obtain ⟨k', s, hpair, hvalue, hs, hrs, hleast⟩ := hsucceeds
  cases hpair
  have hkey := h.traversable.normal k' hvalue
  refine ⟨k', s, rfl, hkey, rfl, hvalue, hrs, { h with
    reached := .inr ⟨k', hkey, hs⟩, keys := ?_, ranked := fun e he => ?_, increasing := ?_,
    complete := fun k₁ s₁ hs₁ hk₁ hle => ?_ }⟩
  · rw [List.map_append, List.map_append, h.keys]
    rfl
  · rcases List.mem_append.mp he with he | he
    · obtain ⟨hrank, hle, hnormal⟩ := h.ranked e he
      exact ⟨hrank, by omega, hnormal⟩
    · cases List.mem_singleton.mp he
      exact ⟨(h.ranks k').symm.trans hs, Nat.le_refl s, hkey⟩
  · rw [List.pairwise_append]
    refine ⟨h.increasing, List.pairwise_singleton .., fun a ha b hb => ?_⟩
    cases List.mem_singleton.mp hb
    exact Nat.lt_of_le_of_lt (h.ranked a ha).2.1 hrs
  · rw [List.mem_append]
    by_cases hbefore : s₁ ≤ r
    · exact .inl (h.complete k₁ s₁ hs₁ hk₁ hbefore)
    · right
      cases Nat.le_antisymm hle (hleast k₁ s₁ hs₁ hk₁ (Nat.lt_of_not_le hbefore))
      cases h.traversable.rank_inj hs hs₁
      exact List.mem_singleton.mpr rfl

theorem Traversal.progress {k : Value} (ht : Traversable t₀) (h : Traversal t₀ t k seen) :
    ∃ trail r, Progress t₀ t k seen trail r := by
  induction h with
  | start =>
    refine ⟨[], 0, ht, fun _ => rfl, fun _ hk => hk, .inl ⟨rfl, rfl⟩, rfl, fun e he => ?_,
      List.Pairwise.nil, fun k s hs _ hle => ?_⟩
    · cases he
    · have := rank_pos hs
      omega
  | assign key v _ hedit ih =>
    obtain ⟨trail, r, hp⟩ := ih
    exact ⟨trail, r, hp.assign hedit⟩
  | visit _ hnext ih =>
    obtain ⟨trail, r, hp⟩ := ih
    obtain ⟨k', s, -, -, -, -, -, hp'⟩ := hp.visit hnext
    exact ⟨_, s, hp'⟩

/-- Keys of equal values have the same rank, so a key behind all others equals none of them. -/
theorem Progress.rawEq_iff {k v : Value} {k' : Key} (h : Progress t₀ t k seen trail r)
    (hv : v.key? = some k') :
    (∃ e ∈ seen, e.1.rawEq v = true) ↔ ∃ s, (k', s) ∈ trail := by
  have hmem : (∃ e ∈ seen, e.1.rawEq v = true) ↔ ∃ w ∈ seen.map Prod.fst, w.rawEq v = true := by
    simp only [List.mem_map, exists_exists_and_eq_and]
  rw [hmem, h.keys]
  constructor
  · rintro ⟨w, hw, heq⟩
    obtain ⟨e, he, rfl⟩ := List.mem_map.mp hw
    rw [Value.rawEq_iff_key? (h.ranked e he).2.2, hv] at heq
    cases heq
    exact ⟨e.2, he⟩
  · rintro ⟨s, hs⟩
    exact ⟨k'.value, List.mem_map.mpr ⟨_, hs, rfl⟩,
      (Value.rawEq_iff_key? (h.ranked _ hs).2.2).mpr hv⟩

/-- A list of increasing numbers from 1 to `n` is no longer than `n`. -/
theorem length_le_of_increasing {ns : List Nat} {n : Nat} (h : ns.Pairwise (· < ·))
    (hpos : ∀ i ∈ ns, 0 < i) (hle : ∀ i ∈ ns, i ≤ n) : ns.length ≤ n := by
  have hsub : ns ⊆ List.range' 1 n := fun i hi =>
    List.mem_range'_1.mpr ⟨hpos i hi, by have := hle i hi; omega⟩
  have hnodup : ns.Nodup := h.imp fun hab => Nat.ne_of_lt hab
  have := (List.subperm_of_subset hnodup hsub).length_le
  rwa [List.length_range'] at this

theorem Progress.length_le {k : Value} (ht : Traversable t₀) (h : Progress t₀ t k seen trail r) :
    seen.length ≤ t₀.indexed + t₀.nodes.size := by
  have hlength : seen.length = (trail.map Prod.snd).length := by
    have hkeys := congrArg List.length h.keys
    rw [List.length_map, List.length_map] at hkeys
    rw [List.length_map, hkeys]
  rw [hlength]
  refine length_le_of_increasing ?_ (fun s hs => ?_) fun s hs => ?_
  · rw [List.pairwise_map]
    exact h.increasing
  · obtain ⟨e, he, rfl⟩ := List.mem_map.mp hs
    exact rank_pos (h.ranked e he).1
  · obtain ⟨e, he, rfl⟩ := List.mem_map.mp hs
    rcases rank_cases (h.ranked e he).1 with ⟨-, -, hle, -⟩ | ⟨-, i, hi, heq⟩
    · omega
    · have := ht.toValid.indexed.lt hi
      omega

theorem lt_of_mem_dropWhile {n : Nat} {e : Key × Nat}
    (h : trail.Pairwise fun a b => a.2 < b.2) (he : e ∈ trail.dropWhile fun e => e.2 ≤ n) :
    n < e.2 := by
  induction trail with
  | nil => cases he
  | cons a trail ih =>
    rw [List.pairwise_cons] at h
    rw [List.dropWhile_cons] at he
    split at he
    next => exact ih h.2 he
    next ha =>
      rw [decide_eq_true_iff] at ha
      rcases List.mem_cons.mp he with rfl | he
      · omega
      · have := h.1 e he
        omega

/-- The positions come first. -/
theorem Progress.positions {k : Value} (ht : Traversable t₀) (h : Progress t₀ t k seen trail r) :
    ∃ (positions : List Nat) (others : List Value),
      seen.map Prod.fst = positions.map (fun p => .int (Int64.ofNat p)) ++ others ∧
        positions.Pairwise (· < ·) ∧ (∀ p ∈ positions, 1 ≤ p ∧ p ≤ t₀.indexed) ∧
        ∀ v ∈ others, ∀ p, 1 ≤ p → p ≤ t₀.indexed → v.rawEq (.int (Int64.ofNat p)) = false := by
  let first := trail.takeWhile fun e => e.2 ≤ t₀.indexed
  let rest := trail.dropWhile fun e => e.2 ≤ t₀.indexed
  have htrail : first ++ rest = trail := List.takeWhile_append_dropWhile
  have hfirst : ∀ e ∈ first, e.2 ≤ t₀.indexed ∧ e ∈ trail := fun e he =>
    ⟨of_decide_eq_true (List.all_eq_true.mp List.all_takeWhile e he),
      htrail ▸ List.mem_append_left rest he⟩
  refine ⟨first.map Prod.snd, rest.map fun e => e.1.value, ?_, ?_, fun p hp => ?_,
    fun v hv p h1 hp => ?_⟩
  · rw [h.keys, ← htrail, List.map_append, List.map_map]
    refine congrArg (· ++ _) (List.map_congr_left fun e he => ?_)
    obtain ⟨hle, hmem⟩ := hfirst e he
    rcases rank_cases (h.ranked e hmem).1 with ⟨-, -, -, heq⟩ | ⟨-, i, -, heq⟩
    · rw [heq]
      rfl
    · omega
  · rw [List.pairwise_map]
    have hincreasing := h.increasing
    rw [← htrail, List.pairwise_append] at hincreasing
    exact hincreasing.1
  · obtain ⟨e, he, rfl⟩ := List.mem_map.mp hp
    exact ⟨rank_pos (h.ranked e (hfirst e he).2).1, (hfirst e he).1⟩
  · obtain ⟨e, he, rfl⟩ := List.mem_map.mp hv
    have hlt := lt_of_mem_dropWhile h.increasing he
    have hmem : e ∈ trail := htrail ▸ List.mem_append_right first he
    obtain ⟨hrank, -, hnormal⟩ := h.ranked e hmem
    refine Bool.eq_false_iff.mpr fun heq => ?_
    rw [Value.rawEq_iff_key? hnormal] at heq
    have hkey : e.1 = positionKey p := (Option.some.inj heq).symm
    rw [hkey, rank_position h1 (Nat.le_trans hp ht.indexed_le) hp] at hrank
    cases hrank
    omega

end progress

/-- A traversal always goes on, gives each key once and with its value, and gives every key of the
table that is still there at the end; it ends, and the positions come first and in order. -/
theorem traversal_complete (sets : List (Value × Value)) {k : Value} {seen : List (Value × Value)}
    (h : Traversal (ofSets sets) t k seen) :
    (∃ entry, t.next k = .ok entry) ∧
      (∀ key v, t.next k = .ok (some (key, v)) →
        v = t.get key ∧ v ≠ .nil ∧ ∀ e ∈ seen, e.1.rawEq key = false) ∧
      (t.next k = .ok none → ∀ key, (ofSets sets).get key ≠ .nil →
        t.get key = .nil ∨ ∃ e ∈ seen, e.1.rawEq key = true) ∧
      seen.length ≤ (ofSets sets).indexed + (ofSets sets).nodes.size ∧
      ∃ (positions : List Nat) (others : List Value),
        seen.map Prod.fst = positions.map (fun p => .int (Int64.ofNat p)) ++ others ∧
          positions.Pairwise (· < ·) ∧ (∀ p ∈ positions, 1 ≤ p ∧ p ≤ (ofSets sets).indexed) ∧
          ∀ v ∈ others, ∀ p, 1 ≤ p → p ≤ (ofSets sets).indexed →
            v.rawEq (.int (Int64.ofNat p)) = false := by
  have ht := traversable_ofSets sets
  obtain ⟨trail, r, hp⟩ := h.progress ht
  obtain ⟨entry, hentry, hsucceeds⟩ := hp.traversable.next hp.reached
  refine ⟨⟨entry, hentry⟩, fun key v hnext => ?_, fun hnext key hkey => ?_, hp.length_le ht,
    hp.positions ht⟩
  · obtain ⟨k', s, -, hk', hv, hne, hrs, hp'⟩ := hp.visit hnext
    refine ⟨by rw [get_of_key? t hk', hv], hne, fun e he => Bool.eq_false_iff.mpr fun heq => ?_⟩
    obtain ⟨s', hs'⟩ := (hp.rawEq_iff hk').mp ⟨e, he, heq⟩
    obtain ⟨hrank, hle, -⟩ := hp.ranked _ hs'
    have hlast := (hp'.ranked (k', s) (List.mem_append_right trail List.mem_cons_self)).1
    cases hrank.symm.trans hlast
    omega
  · rw [hentry] at hnext
    cases hnext
    rw [Classical.or_iff_not_imp_left]
    intro hvalue
    cases hk : key.key? with
    | none => exact absurd (get_of_no_key t hk) hvalue
    | some k' =>
      rw [get_of_key? t hk] at hvalue
      obtain ⟨s, hs⟩ := hp.traversable.rank_of_value hvalue
      exact (hp.rawEq_iff hk).mpr ⟨s, hp.complete k' s hs hvalue (hsucceeds k' s hs hvalue)⟩

/-- The first key is removed when the traversal has come to it, which moves the second one to the
nodes; there it is still found. -/
theorem traversal_complete_truncated :
    let sets : List (Value × Value) := [(.int 1, .bool true), (.int 2, .bool false)]
    let t := (ofSets sets).assign (.int 1, .nil)
    Traversal (ofSets sets) t (.int 1) [(.int 1, .bool true)] ∧
      (∃ entry, t.next (.int 1) = .ok entry) ∧
      (t.next (.int 1) = .ok none → t.get (.int 2) = .nil ∨
        ∃ e ∈ [((.int 1 : Value), (.bool true : Value))], e.1.rawEq (.int 2) = true) := by
  intro sets t
  have hvisit : Traversal (ofSets sets) (ofSets sets) (.int 1) [(.int 1, .bool true)] :=
    .visit .start rfl
  have htraversal : Traversal (ofSets sets) t (.int 1) [(.int 1, .bool true)] :=
    hvisit.assign (.int 1) .nil (.inl rfl)
  have h := traversal_complete sets htraversal
  exact ⟨htraversal, h.1, fun hend => h.2.2.1 hend (.int 2) Value.noConfusion⟩

end Table
end LuaMachine
