import LuaMachine.Generator
import LuaMachine.Proofs.Heap.Interning
import LuaMachine.Proofs.Table.Contents
/-! # What a heap holds

In a sound heap every object leads only to objects that are there and that are of the kind they are
taken for, and every closure runs a part of a compiled program.

* `Heap.Has`: the object or the text that a value stands for is there.
* `PrototypeId.prototype?`: the part of a program that a number and a path stand for.
* `Heap.ObjectSound`, `Heap.Sound`: the invariant of an object and of a heap.
* `Heap.Grows`: what is there stays there; every change but a collection is of this kind.
* `Heap.Retains`: what is there was there before; this holds of a collection too.
* `Heap.Sound.collect`: a collection keeps a heap sound, and keeps what the roots lead to.
-/
set_option autoImplicit false

namespace LuaMachine

/-! ## Parts of programs -/

/-- The function at the end of a path through the children, whose last step stands first. -/
def Prototype.descend (p : Prototype) : List Nat → Option Prototype
  | [] => some p
  | i :: path => (p.descend path).bind fun q => q.children[i]?

def PrototypeId.prototype? (code : Nat → Prototype) (id : PrototypeId) : Option Prototype :=
  (code id.program).descend id.path

theorem PrototypeId.prototype?_child {code : Nat → Prototype} {id : PrototypeId} {p q : Prototype}
    {i : Nat} (hp : id.prototype? code = some p) (hq : p.children[i]? = some q) :
    (id.child i).prototype? code = some q := by
  show ((code id.program).descend id.path).bind (fun q => q.children[i]?) = some q
  rw [show (code id.program).descend id.path = some p from hp]
  exact hq

/-- What holds of a whole program and of the children of what it holds of, holds of each part. -/
theorem PrototypeId.prototype?_ind {P : Prototype → Prop} {code : Nat → Prototype}
    {id : PrototypeId} {p : Prototype} (hp : id.prototype? code = some p) (hroot : P (code id.program))
    (hchild : ∀ p, P p → ∀ q ∈ p.children, P q) : P p := by
  have hpath : ∀ (path : List Nat) p, (code id.program).descend path = some p → P p := by
    intro path
    induction path with
    | nil =>
      intro p hp
      cases hp
      exact hroot
    | cons i path ih =>
      intro p hp
      obtain ⟨q, hq, hp⟩ := Option.bind_eq_some_iff.mp hp
      exact hchild q (ih q hq) p (Array.mem_of_getElem? hp)
  exact hpath _ _ hp

namespace Heap

/-! ## Values -/

/-- The object or the text that a value stands for is there; other values are always there. -/
def Has (h : Heap) : Value → Prop
  | .str s => s ∈ h.texts
  | .table r => ∃ t, h.cells[r]? = some (.table t)
  | .closure r => ∃ c, h.cells[r]? = some (.closure c)
  | _ => True

theorem has_plain (h : Heap) {v : Value} (hv : v.Plain) : h.Has v := by
  cases v with
  | str | table | closure => cases hv
  | _ => trivial

theorem has_nil (h : Heap) : h.Has .nil := trivial

/-- Whatever the heap has is a living object or a text. -/
theorem Has.holds {h : Heap} {v : Value} (hv : h.Has v) : h.holds v = true := by
  cases v with
  | str s => exact Std.HashMap.contains_iff_mem.mpr hv
  | table r =>
    obtain ⟨t, ht⟩ := hv
    exact isLiving_iff.mpr ⟨_, ht, Object.noConfusion⟩
  | closure r =>
    obtain ⟨c, hc⟩ := hv
    exact isLiving_iff.mpr ⟨_, hc, Object.noConfusion⟩
  | _ => rfl

/-! ## Objects -/

/-- A closure runs a part of a program, and its upvalues are upvalues. -/
structure ClosureSound (code : Nat → Prototype) (programs : Nat) (h : Heap) (c : Closure) :
    Prop where
  program : c.id.program < programs
  prototype : c.id.prototype? code = some c.prototype
  size : c.upvalues.size = c.prototype.upvalues.size
  upvalues : ∀ r, some r ∈ c.upvalues → ∃ u, h.cells[r]? = some (.upvalue u)

/-- What holds of the object at a place: an open upvalue is among those that the machine keeps. -/
def ObjectSound (code : Nat → Prototype) (programs : Nat) (opened : List (Nat × Ref)) (h : Heap)
    (r : Ref) : Object → Prop
  | .dead => True
  | .table t => t.Holds h.Has
  | .closure c => ClosureSound code programs h c
  | .upvalue (.opened slot) => (slot, r) ∈ opened
  | .upvalue (.closed v) => h.Has v

/-- The constants of a part of a program as values. -/
structure PoolSound (code : Nat → Prototype) (programs : Nat) (h : Heap) (id : PrototypeId)
    (vs : Array Value) : Prop where
  program : id.program < programs
  values : ∃ p, id.prototype? code = some p ∧ vs = p.chunk.constants.map Constant.value
  has : ∀ v ∈ vs, h.Has v

structure Sound (code : Nat → Prototype) (programs : Nat) (opened : List (Nat × Ref))
    (pools : Pools) (h : Heap) : Prop where
  listed : h.Listed
  interned : h.Interned
  objects : ∀ r o, h.cells[r]? = some o → ObjectSound code programs opened h r o
  pools : ∀ id vs, pools[id]? = some vs → PoolSound code programs h id vs

/-! ## Growth -/

/-- What is there stays there as what it is. -/
structure Grows (h h' : Heap) : Prop where
  text : ∀ s, s ∈ h.texts → s ∈ h'.texts
  table : ∀ (r : Ref) (t : Table), h.cells[r]? = some (.table t) →
    ∃ t', h'.cells[r]? = some (.table t')
  closure : ∀ (r : Ref) (c : Closure), h.cells[r]? = some (.closure c) →
    ∃ c', h'.cells[r]? = some (.closure c') ∧ c'.id = c.id ∧ c'.prototype = c.prototype
  upvalue : ∀ (r : Ref) (u : Upvalue), h.cells[r]? = some (.upvalue u) →
    ∃ u', h'.cells[r]? = some (.upvalue u')

variable {h h' : Heap} {code : Nat → Prototype} {programs : Nat} {opened : List (Nat × Ref)}
  {pools : Pools}

theorem Grows.refl (h : Heap) : h.Grows h :=
  ⟨fun _ hs => hs, fun _ t ht => ⟨t, ht⟩, fun _ c hc => ⟨c, hc, rfl, rfl⟩, fun _ u hu => ⟨u, hu⟩⟩

theorem Grows.trans {h'' : Heap} (hg : h.Grows h') (hg' : h'.Grows h'') : h.Grows h'' where
  text s hs := hg'.text s (hg.text s hs)
  table r t ht := by
    obtain ⟨t', ht'⟩ := hg.table r t ht
    exact hg'.table r t' ht'
  closure r c hc := by
    obtain ⟨c', hc', hid, hproto⟩ := hg.closure r c hc
    obtain ⟨c'', hc'', hid', hproto'⟩ := hg'.closure r c' hc'
    exact ⟨c'', hc'', hid'.trans hid, hproto'.trans hproto⟩
  upvalue r u hu := by
    obtain ⟨u', hu'⟩ := hg.upvalue r u hu
    exact hg'.upvalue r u' hu'

theorem Grows.has (hg : h.Grows h') {v : Value} (hv : h.Has v) : h'.Has v := by
  cases v with
  | str s => exact hg.text s hv
  | table r =>
    obtain ⟨t, ht⟩ := hv
    exact hg.table r t ht
  | closure r =>
    obtain ⟨c, hc⟩ := hv
    obtain ⟨c', hc', -⟩ := hg.closure r c hc
    exact ⟨c', hc'⟩
  | _ => trivial

theorem ClosureSound.grows {c : Closure} (hc : ClosureSound code programs h c) (hg : h.Grows h') :
    ClosureSound code programs h' c where
  program := hc.program
  prototype := hc.prototype
  size := hc.size
  upvalues r hr := by
    obtain ⟨u, hu⟩ := hc.upvalues r hr
    exact hg.upvalue r u hu

theorem ObjectSound.grows {r : Ref} {o : Object} (ho : ObjectSound code programs opened h r o)
    (hg : h.Grows h') : ObjectSound code programs opened h' r o := by
  cases o with
  | dead => trivial
  | table t => exact Table.Holds.mono ho fun v hv => hg.has hv
  | closure c => exact ClosureSound.grows ho hg
  | upvalue u =>
    cases u with
    | opened slot => exact ho
    | closed v => exact hg.has ho

theorem PoolSound.grows {id : PrototypeId} {vs : Array Value}
    (hp : PoolSound code programs h id vs) (hg : h.Grows h') : PoolSound code programs h' id vs :=
  ⟨hp.program, hp.values, fun v hv => hg.has (hp.has v hv)⟩

/-- A heap in which every new object is sound. -/
theorem Sound.grows (hs : h.Sound code programs opened pools) (hg : h.Grows h') (hl : h'.Listed)
    (hi : h'.Interned) (hnew : ∀ r o, h'.cells[r]? = some o →
      h.cells[r]? = some o ∨ ObjectSound code programs opened h' r o) :
    h'.Sound code programs opened pools where
  listed := hl
  interned := hi
  objects r o ho := by
    rcases hnew r o ho with ho | ho
    · exact (hs.objects r o ho).grows hg
    · exact ho
  pools id vs hvs := (hs.pools id vs hvs).grows hg

/-! ## Old objects -/

/-- Where there was a place before, there is the object of before, or none. -/
structure Retains (h h' : Heap) : Prop where
  size : h.cells.size ≤ h'.cells.size
  cell : ∀ (r : Ref) (o : Object), r < h.cells.size → h'.cells[r]? = some o → o ≠ .dead →
    h.cells[r]? = some o

theorem Retains.refl (h : Heap) : h.Retains h :=
  ⟨Nat.le_refl _, fun _ _ _ ho _ => ho⟩

theorem Retains.trans {h'' : Heap} (hr : h.Retains h') (hr' : h'.Retains h'') : h.Retains h'' :=
  ⟨Nat.le_trans hr.size hr'.size, fun r o hlt ho hne =>
    hr.cell r o hlt (hr'.cell r o (Nat.lt_of_lt_of_le hlt hr.size) ho hne) hne⟩

/-- A closure that is still there is as it was. -/
theorem Retains.closure {r : Ref} {c : Closure} (hr : h.Retains h')
    (hc : h.cells[r]? = some (.closure c)) (hhas : h'.Has (.closure r)) :
    h'.cells[r]? = some (.closure c) := by
  obtain ⟨c', hc'⟩ := hhas
  obtain ⟨hlt, -⟩ := Array.getElem?_eq_some_iff.mp hc
  have hold := hr.cell r _ hlt hc' Object.noConfusion
  rw [hc', ← hold, hc]

/-! ## Texts -/

theorem addText_grows (h : Heap) (s : String) : h.Grows (h.addText s) :=
  ⟨fun _ ht => Std.HashMap.mem_insert.mpr (.inr ht), fun _ t ht => ⟨t, ht⟩,
    fun _ c hc => ⟨c, hc, rfl, rfl⟩, fun _ u hu => ⟨u, hu⟩⟩

theorem mem_addText (h : Heap) (s : String) : s ∈ (h.addText s).texts :=
  Std.HashMap.mem_insert_self

theorem Sound.addText (hs : h.Sound code programs opened pools) {s : String} (hnew : s ∉ h.texts) :
    (h.addText s).Sound code programs opened pools :=
  hs.grows (addText_grows h s) ⟨hs.listed.nodup, hs.listed.mem_iff⟩ (hs.interned.addText hnew)
    fun _ _ ho => .inl ho

/-! ## New objects -/

theorem allocate_getElem? (h : Heap) (o : Object) (r : Ref) :
    (h.allocate o).1.cells[r]? = if r = h.cells.size then some o else h.cells[r]? := by
  show (h.cells.push o)[r]? = _
  rw [Array.getElem?_push]

theorem allocate_self (h : Heap) (o : Object) :
    (h.allocate o).1.cells[h.cells.size]? = some o := by
  rw [allocate_getElem?, if_pos rfl]

theorem allocate_of_some {o o' : Object} {r : Ref} (ho : h.cells[r]? = some o') :
    (h.allocate o).1.cells[r]? = some o' := by
  obtain ⟨hlt, -⟩ := Array.getElem?_eq_some_iff.mp ho
  rw [allocate_getElem?, if_neg (Nat.ne_of_lt hlt), ho]

theorem allocate_grows (h : Heap) (o : Object) : h.Grows (h.allocate o).1 :=
  ⟨fun _ hs => hs, fun _ t ht => ⟨t, allocate_of_some ht⟩,
    fun _ c hc => ⟨c, allocate_of_some hc, rfl, rfl⟩, fun _ u hu => ⟨u, allocate_of_some hu⟩⟩

theorem allocate_retains (h : Heap) (o : Object) : h.Retains (h.allocate o).1 := by
  refine ⟨?_, fun r o' hlt ho' _ => ?_⟩
  · show h.cells.size ≤ (h.cells.push o).size
    rw [Array.size_push]
    exact Nat.le_succ _
  · rw [allocate_getElem?, if_neg (Nat.ne_of_lt hlt)] at ho'
    exact ho'

theorem Listed.allocate (hl : h.Listed) {o : Object} (ho : o ≠ .dead) :
    (h.allocate o).1.Listed := by
  have hnew : h.cells.size ∉ h.living := fun hmem => Nat.lt_irrefl _ (hl.lt_size hmem)
  refine ⟨List.nodup_cons.mpr ⟨hnew, hl.nodup⟩, fun r => ?_⟩
  show r ∈ h.cells.size :: h.living ↔ _
  rw [List.mem_cons, isLiving_iff, allocate_getElem?]
  by_cases hr : r = h.cells.size
  · simp [hr, ho]
  · simp only [hr, false_or, if_false]
    rw [hl.mem_iff, isLiving_iff]

theorem Sound.allocate (hs : h.Sound code programs opened pools) {o : Object} (hne : o ≠ .dead)
    (ho : ObjectSound code programs opened (h.allocate o).1 h.cells.size o) :
    (h.allocate o).1.Sound code programs opened pools := by
  refine hs.grows (allocate_grows h o) (hs.listed.allocate hne) (hs.interned.congr rfl rfl rfl)
    fun r o' ho' => ?_
  rw [allocate_getElem?] at ho'
  split at ho'
  next hr =>
    cases ho'
    exact .inr (hr ▸ ho)
  next => exact .inl ho'

/-! ## Changed objects -/

/-- The object at one place is replaced by one of its kind. -/
structure Replaces (h h' : Heap) (r : Ref) (o o' : Object) : Prop where
  old : h.cells[r]? = some o
  new : h'.cells[r]? = some o'
  others : ∀ r', r' ≠ r → h'.cells[r']? = h.cells[r']?
  living : h'.living = h.living
  strings : h'.strings = h.strings
  texts : h'.texts = h.texts
  made : h'.made = h.made

theorem Replaces.listed {r : Ref} {o o' : Object} (hr : h.Replaces h' r o o') (hl : h.Listed)
    (ho : o ≠ .dead) (ho' : o' ≠ .dead) : h'.Listed := by
  refine ⟨hr.living ▸ hl.nodup, fun r' => ?_⟩
  rw [hr.living, hl.mem_iff, isLiving_iff, isLiving_iff]
  by_cases hr' : r' = r
  · subst hr'
    simp [hr.old, hr.new, ho, ho']
  · rw [hr.others r' hr']

theorem Replaces.of_some {r r' : Ref} {o o' x : Object} (hr : h.Replaces h' r o o')
    (hx : h.cells[r']? = some x) : h'.cells[r']? = some x ∨ r' = r ∧ x = o := by
  by_cases hr' : r' = r
  · subst hr'
    exact .inr ⟨rfl, Option.some.inj (hx.symm.trans hr.old)⟩
  · exact .inl ((hr.others r' hr').trans hx)

theorem Replaces.sound {r : Ref} {o o' : Object} (hr : h.Replaces h' r o o') (hg : h.Grows h')
    (hs : h.Sound code programs opened pools) (ho : o ≠ .dead) (hne : o' ≠ .dead)
    (ho' : ObjectSound code programs opened h' r o') : h'.Sound code programs opened pools := by
  refine hs.grows hg (hr.listed hs.listed ho hne)
    (hs.interned.congr hr.strings hr.texts hr.made) fun r' x hx => ?_
  by_cases hr' : r' = r
  · subst hr'
    rw [hr.new] at hx
    cases hx
    exact .inr ho'
  · exact .inl ((hr.others r' hr').symm.trans hx)

theorem Replaces.grows_table {r : Ref} {t t' : Table}
    (hr : h.Replaces h' r (.table t) (.table t')) : h.Grows h' where
  text s hs := hr.texts ▸ hs
  table r' x hx := by
    rcases hr.of_some hx with hx | ⟨rfl, -⟩
    · exact ⟨x, hx⟩
    · exact ⟨t', hr.new⟩
  closure r' c hc := by
    rcases hr.of_some hc with hc | ⟨-, hc⟩
    · exact ⟨c, hc, rfl, rfl⟩
    · cases hc
  upvalue r' u hu := by
    rcases hr.of_some hu with hu | ⟨-, hu⟩
    · exact ⟨u, hu⟩
    · cases hu

theorem Replaces.grows_closure {r : Ref} {c c' : Closure}
    (hr : h.Replaces h' r (.closure c) (.closure c')) (hid : c'.id = c.id)
    (hproto : c'.prototype = c.prototype) : h.Grows h' where
  text s hs := hr.texts ▸ hs
  table r' x hx := by
    rcases hr.of_some hx with hx | ⟨-, hx⟩
    · exact ⟨x, hx⟩
    · cases hx
  closure r' x hx := by
    rcases hr.of_some hx with hx | ⟨rfl, hx⟩
    · exact ⟨x, hx, rfl, rfl⟩
    · cases hx
      exact ⟨c', hr.new, hid, hproto⟩
  upvalue r' u hu := by
    rcases hr.of_some hu with hu | ⟨-, hu⟩
    · exact ⟨u, hu⟩
    · cases hu

theorem Replaces.grows_upvalue {r : Ref} {u u' : Upvalue}
    (hr : h.Replaces h' r (.upvalue u) (.upvalue u')) : h.Grows h' where
  text s hs := hr.texts ▸ hs
  table r' x hx := by
    rcases hr.of_some hx with hx | ⟨-, hx⟩
    · exact ⟨x, hx⟩
    · cases hx
  closure r' c hc := by
    rcases hr.of_some hc with hc | ⟨-, hc⟩
    · exact ⟨c, hc, rfl, rfl⟩
    · cases hc
  upvalue r' x hx := by
    rcases hr.of_some hx with hx | ⟨rfl, -⟩
    · exact ⟨x, hx⟩
    · exact ⟨u', hr.new⟩

theorem replaces_set {r : Ref} {o : Object} (o' : Object) (ho : h.cells[r]? = some o) :
    h.Replaces { h with cells := h.cells.setIfInBounds r o' } r o o' where
  old := ho
  new := by
    obtain ⟨hlt, -⟩ := Array.getElem?_eq_some_iff.mp ho
    exact Array.getElem?_setIfInBounds_self_of_lt hlt
  others _ hr' := Array.getElem?_setIfInBounds_ne (Ne.symm hr')
  living := rfl
  strings := rfl
  texts := rfl
  made := rfl

theorem modifyTable_replaces {r : Ref} {t : Table} (f : Table → Table)
    (ht : h.cells[r]? = some (.table t)) :
    h.Replaces (h.modifyTable r f) r (.table t) (.table (f t)) where
  old := ht
  new := by
    show (h.cells.modify r _)[r]? = _
    rw [Array.getElem?_modify, if_pos rfl, ht]
    rfl
  others r' hr' := by
    show (h.cells.modify r _)[r']? = _
    rw [Array.getElem?_modify, if_neg (Ne.symm hr')]
  living := rfl
  strings := rfl
  texts := rfl
  made := rfl

/-- A table is changed only if there is one. -/
theorem modifyTable_eq_self {r : Ref} (f : Table → Table)
    (hr : ∀ t, h.cells[r]? ≠ some (.table t)) : h.modifyTable r f = h := by
  have hcells : (h.modifyTable r f).cells = h.cells := by
    apply Array.ext_getElem?
    intro i
    show (h.cells.modify r _)[i]? = _
    rw [Array.getElem?_modify]
    split
    next hi =>
      subst hi
      cases ho : h.cells[r]? with
      | none => rfl
      | some o =>
        cases o with
        | table t => exact absurd ho (hr t)
        | _ => rfl
    next => rfl
  show { h with cells := (h.modifyTable r f).cells } = h
  rw [hcells]

theorem table_eq {r : Ref} {t : Table} (ht : h.cells[r]? = some (.table t)) : h.table r = t := by
  simp [table, ht]

theorem closure?_eq {r : Ref} {c : Closure} (hc : h.cells[r]? = some (.closure c)) :
    h.closure? r = some c := by
  simp [closure?, hc]

theorem upvalue?_eq_some_iff {r : Ref} {u : Upvalue} :
    h.upvalue? r = some u ↔ h.cells[r]? = some (.upvalue u) := by
  unfold upvalue?
  split
  next u' hu => simp [hu]
  next hne => exact ⟨fun h => (nomatch h), fun hu => absurd hu (hne u)⟩

theorem Sound.table (hs : h.Sound code programs opened pools) (r : Ref) :
    (h.table r).Holds h.Has := by
  unfold Heap.table
  split
  next t ht => exact hs.objects r _ ht
  next => exact .empty

theorem Sound.setKey (hs : h.Sound code programs opened pools) {r : Ref} {k : Key} {v : Value}
    (hk : h.Has k.value) (hv : h.Has v) :
    (h.modifyTable r fun t => t.setKey k v).Sound code programs opened pools ∧
      h.Grows (h.modifyTable r fun t => t.setKey k v) := by
  by_cases hr : ∃ t, h.cells[r]? = some (.table t)
  · obtain ⟨t, ht⟩ := hr
    have hrep := modifyTable_replaces (fun t => t.setKey k v) ht
    have hg := hrep.grows_table
    refine ⟨hrep.sound hg hs Object.noConfusion Object.noConfusion ?_, hg⟩
    have hold : t.Holds h.Has := hs.objects r _ ht
    exact (hold.setKey (fun v hv => h.has_plain hv) hk hv).mono fun v hv => hg.has hv
  · rw [modifyTable_eq_self _ fun t ht => hr ⟨t, ht⟩]
    exact ⟨hs, .refl h⟩

/-! ## Collection -/

variable {roots : Roots}

theorem Has.collect {v : Value} (hv : h.Has v)
    (hr : ∀ n, v.item? = some n → Reachable h pools roots n) :
    (h.collect pools roots).1.Has v := by
  cases v with
  | str s => exact (collect_texts_iff h pools roots s).mpr ⟨hv, hr _ rfl⟩
  | table r =>
    obtain ⟨t, ht⟩ := hv
    exact ⟨t, (collect_cell h pools roots (hr _ rfl)).trans ht⟩
  | closure r =>
    obtain ⟨c, hc⟩ := hv
    exact ⟨c, (collect_cell h pools roots (hr _ rfl)).trans hc⟩
  | _ => trivial

/-- What is left of the objects was reachable and is as it was. -/
theorem reachable_of_collect (hl : h.Listed) {r : Ref} {o : Object} (ho : o ≠ .dead)
    (hr : (h.collect pools roots).1.cells[r]? = some o) :
    Reachable h pools roots (.place r) ∧ h.cells[r]? = some o := by
  have hreach : Reachable h pools roots (.place r) := by
    apply Classical.byContradiction
    intro hn
    have hdead := collect_dead h pools roots hl hn
    rw [isLiving_iff.mpr ⟨o, hr, ho⟩] at hdead
    cases hdead
  exact ⟨hreach, (collect_cell h pools roots hreach).symm.trans hr⟩

theorem collect_retains (hl : h.Listed) : h.Retains (h.collect pools roots).1 :=
  ⟨Nat.le_of_eq (collect_size h pools roots).symm,
    fun _ _ _ ho hne => (reachable_of_collect hl hne ho).2⟩

/-- Edges of a survivor lead to survivors. -/
theorem ObjectSound.collect {r : Ref} {o : Object} (ho : ObjectSound code programs opened h r o)
    (hr : Reachable h pools roots (.place r)) (hcell : h.cells[r]? = some o) :
    ObjectSound code programs opened (h.collect pools roots).1 r o := by
  cases o with
  | dead => trivial
  | table t =>
    have hold : t.Holds h.Has := ho
    refine ⟨fun v hv => ?_, fun node hnode k hk => ?_, fun node hnode => ?_⟩
    · exact (hold.array v hv).collect fun n hn => .step hr hcell (.array hv hn)
    · exact (hold.keys node hnode k hk).collect fun n hn => .step hr hcell (.key hnode hk hn)
    · exact (hold.nodes node hnode).collect fun n hn => .step hr hcell (.node hnode hn)
  | closure c =>
    have hold : ClosureSound code programs h c := ho
    refine ⟨hold.program, hold.prototype, hold.size, fun r' hr' => ?_⟩
    obtain ⟨u, hu⟩ := hold.upvalues r' hr'
    exact ⟨u, (collect_cell h pools roots (.step hr hcell (.upvalue hr'))).trans hu⟩
  | upvalue u =>
    cases u with
    | opened slot => exact ho
    | closed v =>
      have hold : h.Has v := ho
      exact hold.collect fun n hn => .step hr hcell (.closed hn)

theorem Sound.collect (hs : h.Sound code programs opened pools) (roots : Roots) :
    (h.collect pools roots).1.Sound code programs opened (h.collect pools roots).2 where
  listed := collect_listed h pools roots hs.listed
  interned := hs.interned.sweep _
  objects r o ho := by
    by_cases hdead : o = .dead
    · subst hdead
      trivial
    · obtain ⟨hr, hcell⟩ := reachable_of_collect hs.listed hdead ho
      exact (hs.objects r o hcell).collect hr hcell
  pools id vs hvs := by
    obtain ⟨hvs, r, c, hr, hc, rfl⟩ := (collect_pool_iff h pools roots id vs).mp hvs
    have hpool := hs.pools _ vs hvs
    refine ⟨hpool.program, hpool.values, fun v hv => ?_⟩
    exact (hpool.has v hv).collect fun n hn => .step hr hc (.constant hvs hv hn)

end Heap
end LuaMachine
