import LuaMachine.Proofs.Collection.Reachability
/-! # Marking is exact

The invariant of marking: whatever is marked is reachable, and whatever a marked place leads to is
marked as well unless the place is still gray. Each step takes one place from the gray ones, and a
place turns gray when it is first marked, so as many steps as there are places are enough.

* `Heap.Marking.Extends`: what marking some items adds to a marking.
* `Heap.Marking.Progress`: the invariant, kept by each step of `trace`.
* `Heap.mark_gray`, `Heap.mark_marks_iff`, `Heap.mark_pools_iff`: no gray place is left, and the
  marks are exactly what is reachable.
-/
set_option autoImplicit false

namespace LuaMachine
namespace Heap
namespace Marking

/-! ## Marks -/

/-- The item is marked. A reference to no place of the heap counts as marked. -/
def Marks (m : Marking) : Item → Prop
  | .place r => m.marked.getD r true = true
  | .text s => s ∈ m.texts

/-- The item was found and marked. -/
def Finds (m : Marking) : Item → Prop
  | .place r => m.marked[r]? = some true
  | .text s => s ∈ m.texts

/-- The number of places that are not marked. -/
def unmarked (m : Marking) : Nat := m.marked.count false

/-- The steps that tracing may still take. -/
def pending (m : Marking) : Nat := m.unmarked + m.gray.length

theorem Finds.marks {m : Marking} {n : Item} (h : m.Finds n) : m.Marks n := by
  cases n with
  | place r =>
    have hr : m.marked[r]? = some true := h
    simp only [Marks, Array.getD_eq_getD_getElem?, hr, Option.getD_some]
  | text s => exact h

theorem marks_place_iff {m : Marking} {r : Ref} :
    m.Marks (.place r) ↔ m.marked.size ≤ r ∨ m.Finds (.place r) := by
  simp only [Marks, Finds, Array.getD_eq_getD_getElem?]
  rcases Nat.lt_or_ge r m.marked.size with hr | hr
  · rw [Array.getElem?_eq_getElem hr]
    simp only [Option.getD_some, Option.some.injEq]
    exact ⟨Or.inr, fun h => h.resolve_left (Nat.not_le.mpr hr)⟩
  · rw [Array.getElem?_eq_none hr]
    simp only [Option.getD_none, true_iff]
    exact Or.inl hr

/-- `m'` keeps the marks of `m`. What it adds satisfies `P`, places that it adds are gray, and each
of them takes the place of one that was not marked. -/
structure Extends (P : Item → Prop) (m m' : Marking) : Prop where
  size : m'.marked.size = m.marked.size
  marks : ∀ n, m.Marks n → m'.Marks n
  finds : ∀ n, m'.Finds n → m.Finds n ∨ P n
  gray : ∀ r ∈ m.gray, r ∈ m'.gray
  fresh : ∀ r, m'.Finds (.place r) → m.Finds (.place r) ∨ r ∈ m'.gray
  grayFound : ∀ r ∈ m'.gray, r ∈ m.gray ∨ m'.Finds (.place r)
  pending : m'.pending = m.pending

namespace Extends

variable {P Q : Item → Prop} {m m' m'' : Marking}

theorem refl (P : Item → Prop) (m : Marking) : Extends P m m :=
  ⟨rfl, fun _ h => h, fun _ h => .inl h, fun _ h => h, fun _ h => .inl h, fun _ h => .inl h, rfl⟩

theorem weaken (h : Extends P m m') (hPQ : ∀ n, P n → Q n) : Extends Q m m' :=
  { h with finds := fun n hn => (h.finds n hn).imp_right (hPQ n) }

theorem findsPlace (h : Extends P m m') {r : Ref} (hr : m.Finds (.place r)) :
    m'.Finds (.place r) := by
  rcases marks_place_iff.1 (h.marks _ hr.marks) with hsize | hfound
  · have hlt : r < m.marked.size := by
      have hr' : m.marked[r]? = some true := hr
      exact (Array.getElem?_eq_some_iff.mp hr').1
    rw [h.size] at hsize
    exact absurd hlt (Nat.not_lt.mpr hsize)
  · exact hfound

theorem trans (h : Extends P m m') (h' : Extends P m' m'') : Extends P m m'' where
  size := h'.size.trans h.size
  marks n hn := h'.marks n (h.marks n hn)
  finds n hn := (h'.finds n hn).elim (fun hn' => h.finds n hn') .inr
  gray r hr := h'.gray r (h.gray r hr)
  fresh r hr := (h'.fresh r hr).elim (fun hr' => (h.fresh r hr').imp_right (h'.gray r)) .inr
  grayFound r hr :=
    (h'.grayFound r hr).elim (fun hr' => (h.grayFound r hr').imp_right h'.findsPlace) .inr
  pending := h'.pending.trans h.pending

end Extends

/-! ## Marking single items -/

theorem extends_place (m : Marking) (r : Ref) : Extends (· = .place r) m (m.place r) := by
  unfold place
  split
  · exact Extends.refl _ m
  next hmark =>
  have hlt : r < m.marked.size := by
    refine Nat.lt_of_not_le fun hge => hmark ?_
    rw [Array.getD_eq_getD_getElem?, Array.getElem?_eq_none hge]
    rfl
  have hfalse : m.marked[r] = false := by
    rw [Array.getD_eq_getD_getElem?, Array.getElem?_eq_getElem hlt] at hmark
    simpa using hmark
  have hget : ∀ i, (m.marked.setIfInBounds r true)[i]? =
      if r = i then some true else m.marked[i]? := by
    intro i
    rw [Array.getElem?_setIfInBounds]
    by_cases hi : r = i
    · simp [hi, hi ▸ hlt]
    · simp [hi]
  refine ⟨Array.size_setIfInBounds .., ?_, ?_, ?_, ?_, ?_, ?_⟩
  · intro n hn
    cases n with
    | place i =>
      simp only [Marks, Array.getD_eq_getD_getElem?, hget] at hn ⊢
      split
      · rfl
      · exact hn
    | text s => exact hn
  · intro n hn
    cases n with
    | place i =>
      simp only [Finds, hget] at hn ⊢
      by_cases hi : r = i
      · exact .inr (by rw [hi])
      · exact .inl (by simpa [hi] using hn)
    | text s => exact .inl hn
  · intro i hi
    exact List.mem_cons_of_mem _ hi
  · intro i hi
    simp only [Finds, hget] at hi ⊢
    by_cases hri : r = i
    · exact .inr (by simp [hri])
    · exact .inl (by simpa [hri] using hi)
  · intro i hi
    rcases List.mem_cons.mp hi with rfl | hi
    · exact .inr (by simp [Finds, hget])
    · exact .inl hi
  · have hpos : 0 < m.marked.count false := by
      rw [Array.count_pos_iff, ← hfalse]
      exact Array.getElem_mem hlt
    simp only [pending, unmarked, List.length_cons, Array.setIfInBounds, hlt, dite_true]
    rw [Array.count_set hlt]
    simp only [hfalse, beq_self_eq_true, if_true]
    simp
    omega

theorem marks_place (m : Marking) (r : Ref) : (m.place r).Marks (.place r) := by
  unfold place
  split
  · next hmark => exact hmark
  · simp only [Marks, Array.getD_eq_getD_getElem?, Array.getElem?_setIfInBounds]
    by_cases hr : r < m.marked.size <;> simp [hr]

theorem extends_value (m : Marking) (v : Value) :
    Extends (fun n => v.item? = some n) m (m.value v) := by
  cases v with
  | str s =>
    refine ⟨rfl, ?_, ?_, fun _ h => h, fun _ h => .inl h, fun _ h => .inl h, rfl⟩
    · intro n hn
      cases n with
      | place r => exact hn
      | text t => exact Std.HashSet.mem_insert.mpr (.inr hn)
    · intro n hn
      cases n with
      | place r => exact .inl hn
      | text t =>
        rcases Std.HashSet.mem_insert.mp hn with heq | ht
        · exact .inr (by rw [Value.item?, eq_of_beq heq])
        · exact .inl ht
  | table r => exact (extends_place m r).weaken (fun n hn => by rw [Value.item?, hn])
  | closure r => exact (extends_place m r).weaken (fun n hn => by rw [Value.item?, hn])
  | nil | bool _ | int _ | float _ | native _ => exact Extends.refl _ m

theorem marks_value (m : Marking) (v : Value) (n : Item) (hn : v.item? = some n) :
    (m.value v).Marks n := by
  cases v with
  | str s =>
    obtain rfl := Option.some.inj hn
    exact Std.HashSet.mem_insert_self
  | table r =>
    obtain rfl := Option.some.inj hn
    exact marks_place m r
  | closure r =>
    obtain rfl := Option.some.inj hn
    exact marks_place m r
  | nil | bool _ | int _ | float _ | native _ => cases hn

/-! ## Marking one item after the other -/

section Fold
variable {α : Type} {f : Marking → α → Marking} {E : α → Item → Prop}
  (hf : ∀ m a, Extends (E a) m (f m a)) (hE : ∀ m a n, E a n → (f m a).Marks n)
include hf

theorem extends_foldl (as : List α) (m : Marking) :
    Extends (fun n => ∃ a ∈ as, E a n) m (as.foldl f m) := by
  induction as generalizing m with
  | nil => exact Extends.refl _ m
  | cons a as ih =>
    refine Extends.trans ?_ ((ih (f m a)).weaken ?_)
    · exact (hf m a).weaken fun n hn => ⟨a, List.mem_cons_self, hn⟩
    · rintro n ⟨b, hb, hn⟩
      exact ⟨b, List.mem_cons_of_mem _ hb, hn⟩

include hE

theorem marks_foldl (as : List α) (m : Marking) (a : α) (ha : a ∈ as) (n : Item) (hn : E a n) :
    (as.foldl f m).Marks n := by
  induction as generalizing m with
  | nil => cases ha
  | cons b as ih =>
    rcases List.mem_cons.mp ha with rfl | ha
    · exact (extends_foldl hf as (f m a)).marks n (hE m a n hn)
    · exact ih (f m b) ha

end Fold

theorem extends_values (m : Marking) (vs : Array Value) :
    Extends (fun n => ∃ v ∈ vs, v.item? = some n) m (m.values vs) := by
  rw [values, ← Array.foldl_toList]
  simpa using extends_foldl extends_value vs.toList m

theorem marks_values (m : Marking) (vs : Array Value) (v : Value) (hv : v ∈ vs) (n : Item)
    (hn : v.item? = some n) : (m.values vs).Marks n := by
  rw [values, ← Array.foldl_toList]
  exact marks_foldl extends_value marks_value vs.toList m v (by simpa using hv) n hn

/-- What an entry of a table leads to. -/
def NodeItem (node : Node) (n : Item) : Prop :=
  (∃ k, node.key = some k ∧ k.value.item? = some n) ∨ node.value.item? = some n

theorem extends_node (m : Marking) (node : Node) : Extends (NodeItem node) m (m.node node) := by
  unfold Marking.node
  split
  next k hk =>
    exact ((extends_value m k.value).weaken fun n hn => .inl ⟨k, hk, hn⟩).trans
      ((extends_value _ node.value).weaken fun n hn => .inr hn)
  next hk => exact (extends_value m node.value).weaken fun n hn => .inr hn

theorem marks_node (m : Marking) (node : Node) (n : Item) (hn : NodeItem node n) :
    (m.node node).Marks n := by
  unfold Marking.node
  rcases hn with ⟨k, hk, hn⟩ | hn
  · rw [hk]
    exact (extends_value _ node.value).marks n (marks_value m k.value n hn)
  · split <;> exact marks_value _ node.value n hn

/-! ## Marking what an object leads to -/

@[simp] theorem pools_place (m : Marking) (r : Ref) : (m.place r).pools = m.pools := by
  unfold place
  split <;> rfl

@[simp] theorem pools_value (m : Marking) (v : Value) : (m.value v).pools = m.pools := by
  cases v <;> simp [value]

theorem pools_foldl {α : Type} {f : Marking → α → Marking} (hf : ∀ m a, (f m a).pools = m.pools)
    (as : List α) (m : Marking) : (as.foldl f m).pools = m.pools := by
  induction as generalizing m with
  | nil => rfl
  | cons a as ih => rw [List.foldl_cons, ih, hf]

@[simp] theorem pools_values (m : Marking) (vs : Array Value) : (m.values vs).pools = m.pools := by
  rw [values, ← Array.foldl_toList]
  exact pools_foldl pools_value _ m

@[simp] theorem pools_node (m : Marking) (node : Node) : (m.node node).pools = m.pools := by
  unfold Marking.node
  split <;> simp

/-- An upvalue of a closure, if it is there. -/
def upvalue (m : Marking) (u : Option Ref) : Marking :=
  match u with
  | some r => m.place r
  | none => m

theorem extends_upvalue (m : Marking) (u : Option Ref) :
    Extends (fun n => ∃ r, u = some r ∧ n = .place r) m (m.upvalue u) := by
  cases u with
  | none => exact Extends.refl _ m
  | some r => exact (extends_place m r).weaken fun n hn => ⟨r, rfl, hn⟩

theorem marks_upvalue (m : Marking) (u : Option Ref) (n : Item)
    (hn : ∃ r, u = some r ∧ n = .place r) : (m.upvalue u).Marks n := by
  obtain ⟨r, rfl, rfl⟩ := hn
  exact marks_place m r

theorem object_closure (m : Marking) (pools : Pools) (c : Closure) :
    m.object pools (.closure c) = (c.upvalues.toList.foldl upvalue m).pool pools c.id := by
  rw [Array.foldl_toList]
  rfl

theorem object_table (m : Marking) (pools : Pools) (t : Table) :
    m.object pools (.table t) = t.nodes.toList.foldl Marking.node (m.values t.array) := by
  rw [Array.foldl_toList]
  rfl

/-- The values of marked pools are marked. -/
def PoolValues (m : Marking) (pools : Pools) : Prop :=
  ∀ id ∈ m.pools, ∀ vs, pools[id]? = some vs → ∀ v ∈ vs, ∀ n, v.item? = some n → m.Marks n

/-- What the constants of a prototype lead to. -/
def PoolItem (pools : Pools) (id : PrototypeId) (n : Item) : Prop :=
  ∃ vs, pools[id]? = some vs ∧ ∃ v ∈ vs, v.item? = some n

theorem extends_pool (m : Marking) (pools : Pools) (id : PrototypeId) :
    Extends (PoolItem pools id) m (m.pool pools id) := by
  unfold pool
  split
  · exact Extends.refl _ m
  · split
    next vs hvs =>
      have h := (extends_values { m with pools := m.pools.insert id } vs).weaken
        (Q := PoolItem pools id) fun n hn => ⟨vs, hvs, hn⟩
      exact ⟨h.size, h.marks, h.finds, h.gray, h.fresh, h.grayFound, h.pending⟩
    next => exact Extends.refl _ m

theorem mem_pools_pool (m : Marking) (pools : Pools) (id i : PrototypeId) :
    i ∈ (m.pool pools id).pools ↔ i ∈ m.pools ∨ (id = i ∧ (pools[i]?).isSome) := by
  unfold pool
  split
  next hid =>
    refine ⟨Or.inl, fun h => h.elim (fun h => h) fun h => ?_⟩
    exact h.1 ▸ Std.HashSet.contains_iff_mem.mp hid
  next hid =>
    split
    next vs hvs =>
      rw [pools_values]
      simp only [Std.HashSet.mem_insert, beq_iff_eq]
      constructor
      · rintro (rfl | h)
        · exact .inr ⟨rfl, by rw [hvs]; rfl⟩
        · exact .inl h
      · rintro (h | ⟨rfl, -⟩)
        · exact .inr h
        · exact .inl rfl
    next hnone =>
      refine ⟨Or.inl, fun h => h.elim (fun h => h) fun h => ?_⟩
      rw [← h.1, hnone] at h
      simp at h

theorem PoolValues.pool {m : Marking} {pools : Pools} (h : m.PoolValues pools)
    (id : PrototypeId) : (m.pool pools id).PoolValues pools := by
  intro i hi vs hvs v hv n hn
  by_cases hold : i ∈ m.pools
  · exact (extends_pool m pools id).marks n (h i hold vs hvs v hv n hn)
  · obtain ⟨rfl, -⟩ := ((mem_pools_pool m pools id i).mp hi).resolve_left hold
    have hc : m.pools.contains id = false := by
      rw [← Bool.not_eq_true, Std.HashSet.contains_iff_mem]
      exact hold
    simp only [Marking.pool, hc, Bool.false_eq_true, if_false, hvs]
    exact marks_values _ vs v hv n hn

theorem PoolValues.mono {m m' : Marking} {pools : Pools} {P : Item → Prop}
    (h : m.PoolValues pools) (hE : Extends P m m') (hp : m'.pools = m.pools) :
    m'.PoolValues pools := by
  intro i hi vs hvs v hv n hn
  exact hE.marks n (h i (hp ▸ hi) vs hvs v hv n hn)

theorem extends_object (m : Marking) (pools : Pools) (o : Object) :
    Extends (LeadsTo pools o) m (m.object pools o) := by
  cases o with
  | dead => exact Extends.refl _ m
  | table t =>
    rw [object_table]
    refine ((extends_values m t.array).weaken ?_).trans
      ((extends_foldl extends_node t.nodes.toList _).weaken ?_)
    · rintro n ⟨v, hv, hn⟩
      exact .array hv hn
    · rintro n ⟨node, hnode, ⟨k, hk, hn⟩ | hn⟩
      · exact .key (by simpa using hnode) hk hn
      · exact .node (by simpa using hnode) hn
  | closure c =>
    rw [object_closure]
    refine ((extends_foldl extends_upvalue c.upvalues.toList m).weaken ?_).trans
      ((extends_pool _ pools c.id).weaken ?_)
    · rintro n ⟨u, hu, r, rfl, rfl⟩
      exact .upvalue (by simpa using hu)
    · rintro n ⟨vs, hvs, v, hv, hn⟩
      exact .constant hvs hv hn
  | upvalue u =>
    cases u with
    | opened slot => exact Extends.refl _ m
    | closed v => exact (extends_value m v).weaken fun n hn => .closed hn

theorem mem_pools_object (m : Marking) (pools : Pools) (o : Object) (id : PrototypeId) :
    id ∈ (m.object pools o).pools ↔
      id ∈ m.pools ∨ ∃ c, o = .closure c ∧ c.id = id ∧ (pools[id]?).isSome := by
  cases o with
  | dead => simp [object]
  | table t => rw [object_table, pools_foldl pools_node]; simp
  | closure c =>
    rw [object_closure, mem_pools_pool,
      pools_foldl (fun m u => by cases u <;> simp [Marking.upvalue])]
    simp
  | upvalue u => cases u <;> simp [object]

theorem PoolValues.object {m : Marking} {pools : Pools} (h : m.PoolValues pools) (o : Object) :
    (m.object pools o).PoolValues pools := by
  cases o with
  | closure c =>
    rw [object_closure]
    exact (h.mono (extends_foldl extends_upvalue _ m)
      (pools_foldl (fun m u => by cases u <;> simp [Marking.upvalue]) _ m)).pool c.id
  | dead => exact h
  | table t =>
    refine h.mono (extends_object m pools _) ?_
    rw [object_table, pools_foldl pools_node, pools_values]
  | upvalue u =>
    refine h.mono (extends_object m pools _) ?_
    cases u <;> simp [Marking.object]

theorem marks_object {m : Marking} {pools : Pools} (h : m.PoolValues pools) {o : Object}
    {n : Item} (hn : LeadsTo pools o n) : (m.object pools o).Marks n := by
  have hpool := h.object o
  cases hn with
  | array hv hi =>
    rw [object_table]
    exact (extends_foldl extends_node _ _).marks _ (marks_values m _ _ hv _ hi)
  | key hnode hk hi =>
    rw [object_table]
    exact marks_foldl extends_node marks_node _ _ _ (by simpa using hnode) _ (.inl ⟨_, hk, hi⟩)
  | node hnode hi =>
    rw [object_table]
    exact marks_foldl extends_node marks_node _ _ _ (by simpa using hnode) _ (.inr hi)
  | upvalue hu =>
    rw [object_closure]
    exact (extends_pool _ pools _).marks _
      (marks_foldl extends_upvalue marks_upvalue _ m _ (by simpa using hu) _ ⟨_, rfl, rfl⟩)
  | @constant c vs v n hvs hv hi =>
    have hmem : c.id ∈ (m.object pools (.closure c)).pools :=
      (mem_pools_object m pools _ c.id).mpr (.inr ⟨c, rfl, rfl, by rw [hvs]; rfl⟩)
    exact hpool c.id hmem vs hvs v hv n hi
  | closed hi => exact marks_value m _ _ hi

/-! ## Tracing -/

section Trace
variable {h : Heap} {pools : Pools} {roots : Roots}

/-- What tracing keeps: the marks are reachable, and marked places that are no longer gray lead to
marked items only. -/
structure Progress (h : Heap) (pools : Pools) (roots : Roots) (m : Marking) : Prop where
  size : m.marked.size = h.cells.size
  sound : ∀ n, m.Finds n → Reachable h pools roots n
  poolSound : ∀ id ∈ m.pools, (pools[id]?).isSome ∧ PoolInUse h pools roots id
  poolValues : m.PoolValues pools
  gray : ∀ r ∈ m.gray, m.Finds (.place r)
  traced : ∀ r, m.Finds (.place r) → r ∉ m.gray → ∀ o, h.cells[r]? = some o →
    ∀ n, LeadsTo pools o n → m.Marks n
  tracedPool : ∀ r, m.Finds (.place r) → r ∉ m.gray → ∀ c, h.cells[r]? = some (.closure c) →
    (pools[c.id]?).isSome → c.id ∈ m.pools
  rootValues : ∀ v ∈ roots.values, ∀ n, v.item? = some n → m.Marks n
  rootPlaces : ∀ r ∈ roots.places, m.Marks (.place r)

theorem Progress.lt_size {m : Marking} (hm : Progress h pools roots m) {r : Ref}
    (hr : m.Finds (.place r)) : r < h.cells.size := by
  have hr' : m.marked[r]? = some true := hr
  rw [← hm.size]
  exact (Array.getElem?_eq_some_iff.mp hr').1

/-- The next step of tracing, which looks at the gray place `r`. -/
def look (m : Marking) (cells : Array Object) (pools : Pools) (r : Ref) (rest : List Ref) :
    Marking :=
  ({ m with gray := rest }).object pools (cells.getD r .dead)

theorem Progress.look {m : Marking} (hm : Progress h pools roots m) {r : Ref} {rest : List Ref}
    (hgray : m.gray = r :: rest) : Progress h pools roots (m.look h.cells pools r rest) := by
  have hr : m.Finds (.place r) := hm.gray r (by rw [hgray]; exact List.mem_cons_self)
  have hlt := hm.lt_size hr
  have hcell : h.cells[r]? = some (h.cells.getD r .dead) := by
    rw [Array.getD_eq_getD_getElem?, Array.getElem?_eq_getElem hlt, Option.getD_some]
  have hreach := hm.sound _ hr
  have hE : Extends (LeadsTo pools (h.cells.getD r .dead)) { m with gray := rest }
      (m.look h.cells pools r rest) := extends_object _ pools _
  have hvalues : PoolValues { m with gray := rest } pools := hm.poolValues
  -- A found place that is not gray now was traced before, or it is the one just looked at.
  have hcases : ∀ i, (m.look h.cells pools r rest).Finds (.place i) →
      i ∉ (m.look h.cells pools r rest).gray → (m.Finds (.place i) ∧ i ∉ m.gray) ∨ i = r := by
    intro i hi hnot
    have hold : m.Finds (.place i) := (hE.fresh i hi).resolve_right hnot
    by_cases hir : i = r
    · exact .inr hir
    · refine .inl ⟨hold, fun hmem => ?_⟩
      rw [hgray] at hmem
      exact hnot (hE.gray i ((List.mem_cons.mp hmem).resolve_left hir))
  refine ⟨hE.size.trans hm.size, ?_, ?_, hvalues.object _, ?_, ?_, ?_, ?_, ?_⟩
  · intro n hn
    rcases hE.finds n hn with hold | hnew
    · exact hm.sound n hold
    · exact .step hreach hcell hnew
  · intro id hid
    rcases (mem_pools_object _ pools _ id).mp hid with hold | ⟨c, hc, rfl, hsome⟩
    · exact hm.poolSound id hold
    · exact ⟨hsome, r, c, hreach, by rw [hcell, hc], rfl⟩
  · intro i hi
    rcases hE.grayFound i hi with hold | hnew
    · exact hE.findsPlace (hm.gray i (by rw [hgray]; exact List.mem_cons_of_mem _ hold))
    · exact hnew
  · intro i hi hnot o ho n hn
    rcases hcases i hi hnot with ⟨hfound, hblack⟩ | rfl
    · exact hE.marks n (hm.traced i hfound hblack o ho n hn)
    · obtain rfl := Option.some.inj (hcell.symm.trans ho)
      exact marks_object hvalues hn
  · intro i hi hnot c hc hsome
    rcases hcases i hi hnot with ⟨hfound, hblack⟩ | rfl
    · exact (mem_pools_object _ pools _ c.id).mpr (.inl (hm.tracedPool i hfound hblack c hc hsome))
    · obtain heq := Option.some.inj (hcell.symm.trans hc)
      exact (mem_pools_object _ pools _ c.id).mpr (.inr ⟨c, heq, rfl, hsome⟩)
  · intro v hv n hn
    exact hE.marks n (hm.rootValues v hv n hn)
  · intro i hi
    exact hE.marks _ (hm.rootPlaces i hi)

theorem pending_look {m : Marking} {r : Ref} {rest : List Ref} (hgray : m.gray = r :: rest)
    (cells : Array Object) (pools : Pools) :
    (m.look cells pools r rest).pending + 1 = m.pending := by
  have hE := extends_object { m with gray := rest } pools (cells.getD r .dead)
  have hp : (m.look cells pools r rest).pending = m.unmarked + rest.length := hE.pending
  rw [hp, pending, hgray, List.length_cons]
  omega

theorem Progress.trace {m : Marking} (hm : Progress h pools roots m) (fuel : Nat)
    (hfuel : m.pending ≤ fuel) :
    Progress h pools roots (m.trace h.cells pools fuel) ∧
      (m.trace h.cells pools fuel).gray = [] := by
  induction fuel generalizing m with
  | zero =>
    have hlen : m.gray.length = 0 := by
      unfold pending at hfuel
      omega
    exact ⟨hm, List.eq_nil_of_length_eq_zero hlen⟩
  | succ fuel ih =>
    unfold Marking.trace
    split
    next hnil => exact ⟨hm, hnil⟩
    next r rest hgray =>
      have hstep := pending_look hgray h.cells pools
      have hle : (m.look h.cells pools r rest).pending ≤ fuel := by omega
      exact ih (hm.look hgray) hle

end Trace

/-! ## The roots -/

/-- The marking with which tracing begins. -/
def start (h : Heap) (roots : Roots) : Marking :=
  roots.places.foldl Marking.place
    (roots.values.foldl Marking.value { marked := Array.replicate h.cells.size false })

theorem finds_unmarked (size : Nat) (n : Item) :
    ¬ Finds { marked := Array.replicate size false } n := by
  cases n with
  | place r =>
    intro hr
    have hr' : (Array.replicate size false)[r]? = some true := hr
    rw [Array.getElem?_replicate] at hr'
    split at hr' <;> simp at hr'
  | text s => exact Std.HashSet.not_mem_empty

theorem progress_start (h : Heap) (pools : Pools) (roots : Roots) :
    Progress h pools roots (start h roots) ∧ (start h roots).pending = h.cells.size := by
  let m₀ : Marking := { marked := Array.replicate h.cells.size false }
  have hvalues := extends_foldl extends_value roots.values m₀
  have hplaces := extends_foldl extends_place roots.places (roots.values.foldl value m₀)
  have hE : Extends (Reachable h pools roots) m₀ (start h roots) := by
    refine (hvalues.weaken ?_).trans (hplaces.weaken ?_)
    · rintro n ⟨v, hv, hn⟩
      exact .value hv hn
    · rintro n ⟨r, hr, rfl⟩
      exact .place hr
  have hpools : ∀ id, id ∉ (start h roots).pools := by
    intro id
    rw [start, pools_foldl pools_place, pools_foldl pools_value]
    exact Std.HashSet.not_mem_empty
  have hgray : ∀ r, (start h roots).Finds (.place r) → r ∈ (start h roots).gray :=
    fun r hr => (hE.fresh r hr).resolve_left (finds_unmarked _ _)
  refine ⟨⟨?_, ?_, ?_, ?_, ?_, ?_, ?_, ?_, ?_⟩, ?_⟩
  · rw [hE.size, Array.size_replicate]
  · exact fun n hn => (hE.finds n hn).resolve_left (finds_unmarked _ _)
  · exact fun id hid => absurd hid (hpools id)
  · exact fun id hid => absurd hid (hpools id)
  · exact fun r hr => (hE.grayFound r hr).resolve_left List.not_mem_nil
  · exact fun r hr hnot => absurd (hgray r hr) hnot
  · exact fun r hr hnot => absurd (hgray r hr) hnot
  · exact fun v hv n hn => hplaces.marks n (marks_foldl extends_value marks_value _ _ v hv n hn)
  · exact fun r hr => marks_foldl extends_place
      (fun m r n hn => hn ▸ marks_place m r) _ _ r hr _ rfl
  · rw [hE.pending]
    simp [pending, unmarked, m₀, Array.count_replicate_self]

end Marking

/-! ## The result of marking -/

section Mark
variable (h : Heap) (pools : Pools) (roots : Roots)

theorem mark_progress :
    Marking.Progress h pools roots (h.mark pools roots) ∧ (h.mark pools roots).gray = [] := by
  obtain ⟨hstart, hpending⟩ := Marking.progress_start h pools roots
  exact hstart.trace h.cells.size (Nat.le_of_eq hpending)

theorem marks_of_reachable {n : Item} (hn : Reachable h pools roots n) :
    (h.mark pools roots).Marks n := by
  obtain ⟨hm, hgray⟩ := mark_progress h pools roots
  refine hn.mem_of_closed hm.rootValues hm.rootPlaces ?_
  intro r o n hr ho hl
  have hfound : (h.mark pools roots).Finds (.place r) := by
    refine (Marking.marks_place_iff.mp hr).resolve_left (Nat.not_le.mpr ?_)
    rw [hm.size]
    exact (Array.getElem?_eq_some_iff.mp ho).1
  exact hm.traced r hfound (by rw [hgray]; exact List.not_mem_nil) o ho n hl

theorem mark_place_iff {r : Ref} (hr : r < h.cells.size) :
    (h.mark pools roots).marked.getD r false = true ↔ Reachable h pools roots (.place r) := by
  obtain ⟨hm, -⟩ := mark_progress h pools roots
  have hfinds : (h.mark pools roots).marked.getD r false = true ↔
      (h.mark pools roots).Finds (.place r) := by
    simp only [Marking.Finds, Array.getD_eq_getD_getElem?]
    cases (h.mark pools roots).marked[r]? <;> simp
  rw [hfinds]
  refine ⟨hm.sound _, fun hreach => ?_⟩
  refine (Marking.marks_place_iff.mp (marks_of_reachable h pools roots hreach)).resolve_left ?_
  rw [hm.size]
  exact Nat.not_le.mpr hr

theorem mark_text_iff {s : String} :
    s ∈ (h.mark pools roots).texts ↔ Reachable h pools roots (.text s) :=
  ⟨(mark_progress h pools roots).1.sound (.text s), marks_of_reachable h pools roots⟩

theorem mark_pool_iff {id : PrototypeId} :
    id ∈ (h.mark pools roots).pools ↔ (pools[id]?).isSome ∧ PoolInUse h pools roots id := by
  obtain ⟨hm, hgray⟩ := mark_progress h pools roots
  refine ⟨hm.poolSound id, ?_⟩
  rintro ⟨hsome, r, c, hreach, hc, rfl⟩
  have hfound : (h.mark pools roots).Finds (.place r) := by
    refine (Marking.marks_place_iff.mp (marks_of_reachable h pools roots hreach)).resolve_left ?_
    rw [hm.size]
    exact Nat.not_le.mpr (Array.getElem?_eq_some_iff.mp hc).1
  exact hm.tracedPool r hfound (by rw [hgray]; exact List.not_mem_nil) c hc hsome

end Mark
end Heap
end LuaMachine
