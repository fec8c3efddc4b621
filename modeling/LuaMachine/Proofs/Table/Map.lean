import LuaMachine.Machine.State
import LuaMachine.Proofs.Table.Layout
import LuaMachine.Proofs.Value.Key
import Mathlib.Data.List.Induction
/-! # A table as a finite map

After any assignments to an empty table, a look-up gives the value of the last one whose key equals
the one looked up. Nil and NaN are no keys.

* `Table.assign`, `Table.ofSets`: assignments one after the other; one that fails changes nothing.
* `Table.lastValue`: what the last assignment to a key stored there.
* `Table.get_ofSets`: look-ups in a table that was made by assignments.
-/
set_option autoImplicit false

namespace LuaMachine
namespace Table

/-! ## Values as keys -/

theorem get_eq (t : Table) (k : Value) :
    t.get k =
      match k.key? with
      | some key => t.getKey key
      | none => .nil := by
  cases k <;> rfl

theorem get_of_key? (t : Table) {k : Value} {key : Key} (hk : k.key? = some key) :
    t.get k = t.getKey key := by
  rw [get_eq, hk]

theorem get_of_no_key (t : Table) {k : Value} (hk : k.key? = none) : t.get k = .nil := by
  rw [get_eq, hk]

theorem assignable_eq (k : Value) :
    assignable k =
      match k.key? with
      | some key => .ok key
      | none => .error (if k.isNil then .nilKey else .nanKey) := rfl

theorem set_of_key? (t : Table) {k : Value} {key : Key} (hk : k.key? = some key) (v : Value) :
    t.set k v = .ok (t.setKey key v) := by
  rw [set, assignable_eq, hk]
  rfl

theorem set_of_no_key (t : Table) {k : Value} (hk : k.key? = none) (v : Value) :
    t.set k v = .error (if k.isNil then .nilKey else .nanKey) := by
  rw [set, assignable_eq, hk]
  rfl

theorem set_eq_error_iff (t : Table) (k v : Value) (e : RuntimeError) :
    t.set k v = .error e ↔
      k = .nil ∧ e = .nilKey ∨ (∃ d, k = .float d ∧ Double.isNaN d = true) ∧ e = .nanKey := by
  cases hk : k.key? with
  | some key =>
    rw [set_of_key? t hk]
    constructor
    · intro h
      cases h
    · rintro (⟨rfl, -⟩ | ⟨hnan, -⟩)
      · cases hk
      · rw [Value.key?_eq_none_iff.mpr (.inr hnan)] at hk
        cases hk
  | none =>
    rw [set_of_no_key t hk, Except.error.injEq]
    rcases Value.key?_eq_none_iff.mp hk with rfl | ⟨d, rfl, hnan⟩
    · simp only [Value.isNil, if_true, true_and, reduceCtorEq, false_and, exists_false, or_false]
      exact eq_comm
    · constructor
      · intro h
        exact .inr ⟨⟨d, rfl, hnan⟩, h.symm⟩
      · rintro (⟨h, -⟩ | ⟨-, rfl⟩)
        · cases h
        · rfl

/-! ## Assignments one after the other -/

/-- The table after an assignment; one that fails leaves it as it was. -/
def assign (t : Table) (s : Value × Value) : Table :=
  match t.set s.1 s.2 with
  | .ok t' => t'
  | .error _ => t

/-- The table that assignments make of an empty one, the first of them first. -/
def ofSets (sets : List (Value × Value)) : Table := sets.foldl assign empty

/-- What the last successful assignment to a key equal to `k` stored there; nil if there is none. -/
def lastValue (sets : List (Value × Value)) (k : Value) : Value :=
  match sets.reverse.find? fun s => (assignable s.1).isOk && s.1.rawEq k with
  | some s => s.2
  | none => .nil

theorem assign_of_key? (t : Table) {k : Value} {key : Key} (hk : k.key? = some key) (v : Value) :
    t.assign (k, v) = t.setKey key v := by
  rw [assign, set_of_key? t hk]

theorem assign_of_no_key (t : Table) {k : Value} (hk : k.key? = none) (v : Value) :
    t.assign (k, v) = t := by
  rw [assign, set_of_no_key t hk]

theorem Valid.assign_valid {t : Table} (h : Valid t) (s : Value × Value) : Valid (t.assign s) := by
  obtain ⟨k, v⟩ := s
  cases hk : k.key? with
  | some key =>
    rw [assign_of_key? t hk]
    exact (h.assign key v).1
  | none =>
    rw [assign_of_no_key t hk]
    exact h

theorem ofSets_concat (sets : List (Value × Value)) (s : Value × Value) :
    ofSets (sets ++ [s]) = (ofSets sets).assign s := by
  rw [ofSets, List.foldl_append]
  rfl

theorem valid_ofSets (sets : List (Value × Value)) : Valid (ofSets sets) := by
  induction sets using List.reverseRecOn with
  | nil => exact Valid.empty
  | append_singleton sets s ih =>
    rw [ofSets_concat]
    exact ih.assign_valid s

theorem lastValue_concat (sets : List (Value × Value)) (s : Value × Value) (k : Value) :
    lastValue (sets ++ [s]) k =
      if (assignable s.1).isOk && s.1.rawEq k then s.2 else lastValue sets k := by
  rw [lastValue, List.reverse_concat, List.find?_cons]
  cases (assignable s.1).isOk && s.1.rawEq k <;> rfl

/-- Only the value of the assigned key changes. -/
theorem Valid.get_assign {t : Table} (h : Valid t) (s : Value × Value) (k : Value) :
    (t.assign s).get k = if (assignable s.1).isOk && s.1.rawEq k then s.2 else t.get k := by
  obtain ⟨k', v⟩ := s
  cases hk' : k'.key? with
  | none =>
    rw [assign_of_no_key t hk', assignable_eq]
    dsimp only
    rw [hk']
    rfl
  | some key' =>
    have hequal := Value.rawEq_iff_key? (b := k) hk'
    rw [assign_of_key? t hk', assignable_eq]
    dsimp only
    rw [hk']
    show _ = if k'.rawEq k = true then v else t.get k
    cases hk : k.key? with
    | none =>
      rw [if_neg fun heq => ?_, get_of_no_key _ hk, get_of_no_key _ hk]
      rw [hequal.mp heq] at hk
      cases hk
    | some key =>
      rw [get_of_key? _ hk, get_of_key? _ hk, (h.assign key' v).2 key]
      rw [hk, Option.some.injEq] at hequal
      simp only [hequal]

theorem get_ofSets_eq (sets : List (Value × Value)) (k : Value) :
    (ofSets sets).get k = lastValue sets k := by
  induction sets using List.reverseRecOn with
  | nil =>
    rw [get_eq]
    split
    next key _ =>
      show getKey {} key = .nil
      rw [getKey_node (t := {}) (Nat.zero_le _) fun n hn => absurd hn (Nat.not_lt_zero n),
        lookup_none Std.HashMap.getElem?_empty]
    next => rfl
  | append_singleton sets s ih =>
    rw [ofSets_concat, (valid_ofSets sets).get_assign, lastValue_concat, ih]

/-! ## Tables made by assignments -/

/-- A look-up gives what the last successful assignment to an equal key stored, and nil for the
values that are no keys. Assignments fail for these alone; they leave the table of a machine, and
all else of it, as it was. -/
theorem get_ofSets (sets : List (Value × Value)) :
    (∀ k, (ofSets sets).get k = lastValue sets k) ∧
      (∀ k, (k = .nil ∨ ∃ d, k = .float d ∧ Double.isNaN d = true) → (ofSets sets).get k = .nil) ∧
      (∀ k v e, (ofSets sets).set k v = .error e ↔
        k = .nil ∧ e.message = "index is nil" ∧ e = .nilKey ∨
          (∃ d, k = .float d ∧ Double.isNaN d = true) ∧ e.message = "index is NaN" ∧ e = .nanKey) ∧
      ∀ k v e, (ofSets sets).set k v = .error e → ofSets (sets ++ [(k, v)]) = ofSets sets ∧
        ∀ (m : Machine) (r : Ref), (Machine.setKey r k v).run m = .error (.runtime e) m := by
  refine ⟨get_ofSets_eq sets, fun k hk => ?_, fun k v e => ?_, fun k v e he => ⟨?_, fun m r => ?_⟩⟩
  · exact get_of_no_key _ (Value.key?_eq_none_iff.mpr hk)
  · rw [set_eq_error_iff]
    constructor
    · rintro (⟨hk, rfl⟩ | ⟨hk, rfl⟩)
      · exact .inl ⟨hk, rfl, rfl⟩
      · exact .inr ⟨hk, rfl, rfl⟩
    · rintro (⟨hk, -, rfl⟩ | ⟨hk, -, rfl⟩)
      · exact .inl ⟨hk, rfl⟩
      · exact .inr ⟨hk, rfl⟩
  · rw [ofSets_concat, assign, he]
  · have hassign : assignable k = .error e := by
      unfold set at he
      cases ha : assignable k with
      | error e' =>
        rw [ha] at he
        cases he
        rfl
      | ok key =>
        rw [ha] at he
        cases he
    rw [Machine.setKey, hassign]
    rfl

/-- The second value goes to the nodes first and moves into the array with the third; then the
first is removed, which moves the others back. -/
theorem get_ofSets_migrated :
    let sets : List (Value × Value) :=
      [(.int 2, .bool false), (.int 3, .int 7), (.int 1, .bool true), (.float Double.one, .nil),
        (.nil, .int 5), (.float Double.nan, .int 6)]
    (ofSets sets).get (.int 3) = .int 7 ∧ (ofSets sets).get (.int 1) = .nil ∧
      (ofSets sets).get (.float Double.nan) = .nil ∧
      ofSets (sets ++ [(.nil, .int 1)]) = ofSets sets := by
  intro sets
  have h := get_ofSets sets
  refine ⟨?_, ?_, h.2.1 _ (.inr ⟨Double.nan, rfl, by decide⟩), (h.2.2.2 .nil (.int 1) .nilKey rfl).1⟩
  · rw [h.1]
    rfl
  · rw [h.1]
    rfl

end Table
end LuaMachine
