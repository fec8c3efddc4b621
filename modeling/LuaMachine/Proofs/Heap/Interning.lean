import LuaMachine.Proofs.Collection.Exactness
/-! # The intern table

The intern table has exactly the text objects that are in the heap, each for its content. So a
content has one text object at most.

* `Heap.Interned`: the table and the text objects belong together.
* `Heap.Interned.addText`, `Heap.Interned.collect`: this stays so.
* `Heap.object?`: the text object of a value.
-/
set_option autoImplicit false

namespace LuaMachine
namespace Heap

/-- The intern table has a text object for a content just if it is in the heap with this content,
and no text object is in the heap twice. -/
structure Interned (h : Heap) : Prop where
  exact : ∀ (s : String) (n : Nat), h.texts[s]? = some n ↔ ⟨n, s⟩ ∈ h.strings
  distinct : (h.strings.map TextObject.number).Nodup
  fresh : ∀ o ∈ h.strings, o.number < h.made

variable {h h' : Heap}

theorem interned_empty : Interned {} :=
  ⟨fun s n => by simp, List.nodup_nil, fun _ ho => nomatch ho⟩

theorem Interned.congr (hi : h.Interned) (hstrings : h'.strings = h.strings)
    (htexts : h'.texts = h.texts) (hmade : h'.made = h.made) : h'.Interned where
  exact := by
    rw [hstrings, htexts]
    exact hi.exact
  distinct := hstrings ▸ hi.distinct
  fresh := by
    rw [hstrings, hmade]
    exact hi.fresh

theorem addText_texts (h : Heap) (s t : String) :
    (h.addText s).texts[t]? = if s = t then some h.made else h.texts[t]? := by
  show (h.texts.insert s h.made)[t]? = _
  rw [Std.HashMap.getElem?_insert]
  simp

/-- A text object is added for a content that has none. -/
theorem Interned.addText (hi : h.Interned) {s : String} (hs : s ∉ h.texts) :
    (h.addText s).Interned where
  exact t n := by
    rw [addText_texts]
    show _ ↔ _ ∈ (⟨h.made, s⟩ : TextObject) :: h.strings
    rw [List.mem_cons, ← hi.exact, TextObject.mk.injEq]
    by_cases hst : s = t
    · subst hst
      rw [if_pos rfl, Std.HashMap.getElem?_eq_none hs]
      simp [eq_comm]
    · rw [if_neg hst]
      simp [Ne.symm hst]
  distinct := by
    refine List.nodup_cons.mpr ⟨fun hmem => ?_, hi.distinct⟩
    obtain ⟨o, ho, hnumber⟩ := List.mem_map.mp hmem
    exact Nat.lt_irrefl _ (hnumber ▸ hi.fresh o ho)
  fresh := by
    refine List.forall_mem_cons.mpr ⟨Nat.lt_succ_self _, fun o ho => ?_⟩
    exact Nat.lt_succ_of_lt (hi.fresh o ho)

/-- A collection takes a text object from the heap and from the table at once. -/
theorem Interned.sweep (hi : h.Interned) (m : Marking) : (h.sweep m).Interned where
  exact s n := by
    rw [sweep_texts_iff]
    show _ ↔ _ ∈ h.strings.filter fun o => h.marksText m o
    rw [List.mem_filter, ← hi.exact]
    refine and_congr_right fun hn => ?_
    simp [marksText, hn]
  distinct := hi.distinct.sublist (List.filter_sublist.map _)
  fresh o ho := hi.fresh o (List.mem_filter.mp ho).1

theorem Interned.eq_of_content (hi : h.Interned) {o o' : TextObject} (ho : o ∈ h.strings)
    (ho' : o' ∈ h.strings) (hcontent : o.content = o'.content) : o = o' := by
  obtain ⟨n, s⟩ := o
  obtain ⟨n', s'⟩ := o'
  obtain rfl : s = s' := hcontent
  have hn := (hi.exact s n).mpr ho
  rw [(hi.exact s n').mpr ho'] at hn
  cases hn
  rfl

end Heap
end LuaMachine
