import LuaMachine.Proofs.Number.Equality
/-! # Keys of equal values

Values that are equal without conversions are one key of a table, a whole double and its integer
included.

* `Value.rawEq_iff_key?`: a value that is a key equals those with the same key.
* `Key.key?_value`: a key, taken as a value, is that key.
-/
set_option autoImplicit false

namespace LuaMachine

theorem Value.key?_eq_none_iff {v : Value} :
    v.key? = none ↔ v = .nil ∨ ∃ d, v = .float d ∧ Double.isNaN d = true := by
  cases v with
  | float d =>
    simp only [Value.key?]
    constructor
    · intro h
      split at h
      · cases h
      · split at h
        next hnan => exact .inr ⟨d, rfl, hnan⟩
        next => cases h
    · rintro (h | ⟨_, ⟨⟩, hnan⟩)
      · cases h
      · split
        next i hi =>
          rw [Double.isNaN_of_toInt? (Double.toInt64?_eq_some hi)] at hnan
          cases hnan
        next => rw [if_pos hnan]
  | _ => simp [Value.key?]

/-- A double that is a key is no NaN. -/
theorem Value.isNaN_of_key? {d : Double} {k : Key} (h : (Value.float d).key? = some k) :
    Double.isNaN d = false := by
  refine Bool.eq_false_iff.mpr fun hnan => ?_
  rw [Value.key?_eq_none_iff.2 (.inr ⟨d, rfl, hnan⟩)] at h
  cases h

theorem Value.key?_float_int {d : Double} {i : Int64} :
    (Value.float d).key? = some (.int i) ↔ Double.toInt64? d = some i := by
  simp only [Value.key?]
  constructor
  · intro h
    split at h
    next j hj =>
      cases h
      exact hj
    next =>
      split at h
      · cases h
      · cases h
  · intro h
    simp only [h]

theorem Value.key?_float_bits {d : Double} {bits : UInt64} (h : (Value.float d).key? = some (.float bits)) :
    d = ⟨bits⟩ ∧ Double.toInt64? d = none := by
  simp only [Value.key?] at h
  split at h
  · cases h
  next hnone =>
    split at h
    · cases h
    · cases h
      exact ⟨rfl, hnone⟩

/-- Doubles that are keys are equal when they are the same key. -/
theorem Value.eq_iff_key?_float {a b : Double} {k : Key} (ha : (Value.float a).key? = some k) :
    Double.eq a b = true ↔ (Value.float b).key? = some k := by
  have hnan := Value.isNaN_of_key? ha
  cases hi : Double.toInt64? a with
  | some i =>
    have hk := Value.key?_float_int.2 hi
    rw [ha] at hk
    cases hk
    rw [Value.key?_float_int]
    constructor
    · intro heq
      rw [← Double.toInt64?_of_eq heq, hi]
    · exact Double.eq_of_toInt64? hi
  | none =>
    have hk : k = .float a.bits := by
      simp only [Value.key?, hi, hnan] at ha
      exact (Option.some.inj ha).symm
    subst hk
    constructor
    · intro heq
      obtain ⟨-, -, rfl | ⟨hzero, -⟩⟩ := (Double.eq_iff a b).mp heq
      · exact ha
      · have hself : Double.eq a Double.zero = true :=
          (Double.eq_iff a Double.zero).mpr ⟨hnan, by decide, .inr ⟨hzero, by decide⟩⟩
        rw [Double.toInt64?_of_eq hself] at hi
        cases hi
    · intro hb
      obtain ⟨rfl, -⟩ := Value.key?_float_bits hb
      exact (Double.eq_iff a a).mpr ⟨hnan, hnan, .inl rfl⟩

/-- A value that is a key equals the values with the same key, and no others. -/
theorem Value.rawEq_iff_key? {a b : Value} {k : Key} (ha : a.key? = some k) :
    a.rawEq b = true ↔ b.key? = some k := by
  cases a with
  | nil => cases ha
  | int i =>
    cases ha
    cases b with
    | float d =>
      rw [Value.rawEq, beq_iff_eq]
      exact (Value.key?_float_int).symm
    | _ => constructor <;> intro h <;> simp_all [Value.rawEq, Value.key?]
  | float a =>
    cases b with
    | float b => exact Value.eq_iff_key?_float ha
    | int i =>
      rw [Value.rawEq, beq_iff_eq]
      constructor
      · intro hi
        rw [← ha]
        exact (Value.key?_float_int.2 hi).symm
      · intro hi
        cases hi
        exact Value.key?_float_int.1 ha
    | nil => simp [Value.rawEq, Value.key?]
    | _ =>
      simp only [Value.rawEq, Value.key?, Bool.false_eq_true, Option.some.injEq, false_iff] at ha ⊢
      rintro rfl
      split at ha
      · cases ha
      · split at ha
        · cases ha
        · cases ha
  | _ =>
    cases ha
    cases b with
    | float d =>
      simp only [Value.rawEq, Value.key?, Bool.false_eq_true, false_iff]
      intro h
      split at h
      · cases h
      · split at h
        · cases h
        · cases h
    | _ => constructor <;> intro h <;> simp_all [Value.rawEq, Value.key?]

/-- The key of a value, taken as a value itself, is that key. -/
theorem Key.key?_value {v : Value} {k : Key} (h : v.key? = some k) : k.value.key? = some k := by
  cases v with
  | float d =>
    cases hi : Double.toInt64? d with
    | some i =>
      rw [Value.key?_float_int.2 hi] at h
      cases h
      rfl
    | none =>
      have hk := h
      simp only [Value.key?, hi, Value.isNaN_of_key? h] at hk
      cases hk
      exact h
  | nil => cases h
  | _ =>
    cases h
    rfl

end LuaMachine
