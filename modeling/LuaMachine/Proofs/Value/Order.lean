import LuaMachine.Proofs.Number.Exact
import LuaMachine.Proofs.Value.Key
import LuaMachine.Arithmetic
import Mathlib.Tactic.NormNum
/-! # Equality, order and hashes of values

Numbers are compared by their exact values, an integer with a double without converting either to
the other's form. So order and equality are those of fractions, infinities included, whatever forms
the numbers have; and values that are equal have the same hash.

* `Value.number?`: the exact value of a number.
* `Arithmetic.intLessFloat_iff` and its three siblings: an integer and a double.
* `Value.rawEq_iff`, `lessThan_numbers`, `lessEqual_numbers`: two numbers of any forms.
* `Value.ComparisonLaws`, `Value.comparisons_exact`: the laws of equality, order and hashes.
-/
set_option autoImplicit false

namespace LuaMachine

open Double (Extended)

/-- The exact value of a number that is no NaN. -/
def Value.number? : Value → Option Extended
  | .int i => some (.ofRat i.toInt)
  | .float d => Double.value? d
  | _ => none

def Value.isNaN : Value → Bool
  | .float d => Double.isNaN d
  | _ => false

/-! ## Integers and doubles -/

namespace Arithmetic

open Double

theorem value?_integerBound : value? integerBound = some (.ofRat (2 ^ 63 : Int)) :=
  toInt?_eq_some_iff.mp (by decide)

theorem value?_neg_integerBound : value? (neg integerBound) = some (.ofRat (-2 ^ 63 : Int)) :=
  toInt?_eq_some_iff.mp (by decide)

variable {d : Double} {p : Extended} {i : Int64}

/-- The greatest double below the bound is far below it, so rounding does not reach the bound. -/
theorem le_of_lt_integerBound (h : value? d = some p) (hlt : p < .ofRat (2 ^ 63 : Int)) :
    p ≤ .ofRat (2 ^ 63 - 1024 : Int) := by
  have hbelow : value? ⟨0x43DFFFFFFFFFFFFF⟩ = some (.ofRat (2 ^ 63 - 1024 : Int)) :=
    toInt?_eq_some_iff.mp (by decide)
  have hlt := (lt_iff h value?_integerBound).mpr hlt
  apply (le_iff h hbelow).mp
  have hkey : (key integerBound).toInt = 0x43E0000000000000 := by decide
  have hkey' : (key ⟨0x43DFFFFFFFFFFFFF⟩).toInt = 0x43DFFFFFFFFFFFFF := by decide
  simp only [lt, le, Bool.and_eq_true, decide_eq_true_iff, Int64.lt_iff_toInt_lt,
    Int64.le_iff_toInt_le] at hlt ⊢
  refine ⟨⟨hlt.1.1, by decide⟩, ?_⟩
  omega

theorem toInt_ofInt_of_mem {n : Int} (hlow : -2 ^ 63 ≤ n) (hhigh : n < 2 ^ 63) :
    (Int64.ofInt n).toInt = n :=
  Int64.toInt_ofInt_of_le hlow hhigh

/-- A double in the range of the integers is a fraction, and rounds to integers. -/
theorem fraction_of_inRange (h : value? d = some p) (hlow : .ofRat (-2 ^ 63 : Int) ≤ p)
    (hhigh : p < .ofRat (2 ^ 63 : Int)) :
    ∃ q : ℚ, p = .ofRat q ∧ (Int64.ofInt ⌊q⌋).toInt = ⌊q⌋ ∧ (Int64.ofInt ⌈q⌉).toInt = ⌈q⌉ := by
  have hbelow := le_of_lt_integerBound h hhigh
  induction p using WithBot.recBotCoe with
  | bot => exact absurd (Extended.bot_lt_ofRat _) (not_lt_of_ge hlow)
  | coe p =>
    induction p using WithTop.recTopCoe with
    | top => exact absurd (Extended.ofRat_lt_top _) (not_lt_of_gt hhigh)
    | coe q =>
      have hq : ((-2 ^ 63 : Int) : ℚ) ≤ q ∧ q ≤ ((2 ^ 63 - 1024 : Int) : ℚ) := by
        constructor
        · exact not_lt.mp fun hlt => not_lt_of_ge hlow (Extended.ofRat_lt.mpr hlt)
        · exact not_lt.mp fun hlt => not_lt_of_ge hbelow (Extended.ofRat_lt.mpr hlt)
      have hfloor := Int.le_floor.mpr hq.1
      have hceil := Int.ceil_le.mpr hq.2
      have hle := Int.floor_le_ceil q
      exact ⟨q, rfl, toInt_ofInt_of_mem (by omega) (by omega),
        toInt_ofInt_of_mem (by omega) (by omega)⟩

theorem ofRat_int_lt {m n : Int} : Extended.ofRat m < Extended.ofRat n ↔ m < n := by
  rw [Extended.ofRat_lt]
  exact Int.cast_lt

theorem toInt_lt_bound (i : Int64) : Extended.ofRat i.toInt < .ofRat (2 ^ 63 : Int) :=
  ofRat_int_lt.2 (Int64.toInt_lt i)

theorem bound_le_toInt (i : Int64) : Extended.ofRat (-2 ^ 63 : Int) ≤ .ofRat i.toInt := by
  rw [← not_lt, ofRat_int_lt]
  exact Int.not_lt.mpr (Int64.le_toInt i)

theorem intLessFloat_iff (h : value? d = some p) :
    intLessFloat i d = true ↔ .ofRat i.toInt < p := by
  unfold intLessFloat
  rw [isNaN_of_value? h, if_neg Bool.false_ne_true]
  simp only [le_iff value?_integerBound h, lt_iff value?_neg_integerBound h]
  split_ifs with hbound hrange
  · exact ⟨fun _ => (toInt_lt_bound i).trans_le hbound, fun _ => rfl⟩
  · obtain ⟨q, rfl, -, hround⟩ := fraction_of_inRange h hrange.le (lt_of_not_ge hbound)
    rw [ceilInt?_eq h, Option.any_some, decide_eq_true_iff, Int64.lt_iff_toInt_lt, hround,
      Int.lt_ceil, Extended.ofRat_lt]
  · have hle : p ≤ .ofRat i.toInt := (le_of_not_gt hrange).trans (bound_le_toInt i)
    exact ⟨False.elim, fun hlt => absurd hlt (not_lt_of_ge hle)⟩

theorem intLessEqualFloat_iff (h : value? d = some p) :
    intLessEqualFloat i d = true ↔ .ofRat i.toInt ≤ p := by
  unfold intLessEqualFloat
  rw [isNaN_of_value? h, if_neg Bool.false_ne_true]
  simp only [le_iff value?_integerBound h, le_iff value?_neg_integerBound h]
  split_ifs with hbound hrange
  · exact ⟨fun _ => (toInt_lt_bound i).le.trans hbound, fun _ => rfl⟩
  · obtain ⟨q, rfl, hround, -⟩ := fraction_of_inRange h hrange (lt_of_not_ge hbound)
    rw [floorInt?_eq h, Option.any_some, decide_eq_true_iff, Int64.le_iff_toInt_le, hround,
      Int.le_floor, Extended.ofRat_le]
  · have hlt : p < .ofRat i.toInt := (lt_of_not_ge hrange).trans_le (bound_le_toInt i)
    exact ⟨False.elim, fun hle => absurd hle (not_le_of_gt hlt)⟩

theorem floatLessInt_iff (h : value? d = some p) :
    floatLessInt d i = true ↔ p < .ofRat i.toInt := by
  unfold floatLessInt
  rw [isNaN_of_value? h, if_neg Bool.false_ne_true]
  simp only [le_iff value?_integerBound h, le_iff value?_neg_integerBound h]
  split_ifs with hbound hrange
  · have hle : .ofRat i.toInt ≤ p := (toInt_lt_bound i).le.trans hbound
    exact ⟨False.elim, fun hlt => absurd hlt (not_lt_of_ge hle)⟩
  · obtain ⟨q, rfl, hround, -⟩ := fraction_of_inRange h hrange (lt_of_not_ge hbound)
    rw [floorInt?_eq h, Option.any_some, decide_eq_true_iff, Int64.lt_iff_toInt_lt, hround,
      Int.floor_lt, Extended.ofRat_lt]
  · exact ⟨fun _ => (lt_of_not_ge hrange).trans_le (bound_le_toInt i), fun _ => rfl⟩

theorem floatLessEqualInt_iff (h : value? d = some p) :
    floatLessEqualInt d i = true ↔ p ≤ .ofRat i.toInt := by
  unfold floatLessEqualInt
  rw [isNaN_of_value? h, if_neg Bool.false_ne_true]
  simp only [le_iff value?_integerBound h, lt_iff value?_neg_integerBound h]
  split_ifs with hbound hrange
  · have hlt : .ofRat i.toInt < p := (toInt_lt_bound i).trans_le hbound
    exact ⟨False.elim, fun hle => absurd hle (not_le_of_gt hlt)⟩
  · obtain ⟨q, rfl, -, hround⟩ := fraction_of_inRange h hrange.le (lt_of_not_ge hbound)
    rw [ceilInt?_eq h, Option.any_some, decide_eq_true_iff, Int64.le_iff_toInt_le, hround,
      Int.ceil_le, Extended.ofRat_le]
  · exact ⟨fun _ => (le_of_not_gt hrange).trans (bound_le_toInt i), fun _ => rfl⟩

end Arithmetic

/-! ## Two numbers -/

section

variable {a b : Value} {p q : Extended}

theorem Value.rawEq_iff (ha : a.number? = some p) (hb : b.number? = some q) :
    a.rawEq b = true ↔ p = q := by
  cases a with
  | int i =>
    cases ha
    cases b with
    | int j =>
      cases hb
      simp [Value.rawEq, Extended.ofRat, Int64.toInt_inj]
    | float d =>
      have hd := Double.toInt64?_eq_some_iff (d := d) (i := i)
      rw [show Double.value? d = some q from hb] at hd
      rw [Value.rawEq, beq_iff_eq, hd, Option.some.injEq]
      exact eq_comm
    | _ => cases hb
  | float d =>
    cases b with
    | int j =>
      cases hb
      have hd := Double.toInt64?_eq_some_iff (d := d) (i := j)
      rw [show Double.value? d = some p from ha] at hd
      rw [Value.rawEq, beq_iff_eq, hd, Option.some.injEq]
    | float e => exact Double.eq_iff_value ha hb
    | _ => cases hb
  | _ => cases ha

theorem ok_decide {r : Bool} {P : Prop} [Decidable P] (h : r = true ↔ P) :
    (.ok r : Except RuntimeError Bool) = .ok (decide P) :=
  congrArg Except.ok (Bool.eq_iff_iff.mpr (h.trans decide_eq_true_iff.symm))

theorem lessThan_numbers (ha : a.number? = some p) (hb : b.number? = some q) :
    lessThan a b = .ok (decide (p < q)) := by
  cases a with
  | int i =>
    cases ha
    cases b with
    | int j =>
      cases hb
      apply ok_decide
      rw [decide_eq_true_iff, Arithmetic.ofRat_int_lt, Int64.lt_iff_toInt_lt]
    | float d => exact ok_decide (Arithmetic.intLessFloat_iff hb)
    | _ => cases hb
  | float d =>
    cases b with
    | int j =>
      cases hb
      exact ok_decide (Arithmetic.floatLessInt_iff ha)
    | float e => exact ok_decide (Double.lt_iff ha hb)
    | _ => cases hb
  | _ => cases ha

theorem lessEqual_numbers (ha : a.number? = some p) (hb : b.number? = some q) :
    lessEqual a b = .ok (decide (p ≤ q)) := by
  cases a with
  | int i =>
    cases ha
    cases b with
    | int j =>
      cases hb
      apply ok_decide
      rw [decide_eq_true_iff, ← not_lt, Arithmetic.ofRat_int_lt, Int64.le_iff_toInt_le, Int.not_lt]
    | float d => exact ok_decide (Arithmetic.intLessEqualFloat_iff hb)
    | _ => cases hb
  | float d =>
    cases b with
    | int j =>
      cases hb
      exact ok_decide (Arithmetic.floatLessEqualInt_iff ha)
    | float e => exact ok_decide (Double.le_iff ha hb)
    | _ => cases hb
  | _ => cases ha

end

/-! ## NaN -/

/-- A number is NaN just if it has no exact value. -/
theorem Value.number?_eq_none_iff {v : Value} (h : v.isNumber = true) :
    v.number? = none ↔ v.isNaN = true := by
  cases v with
  | float d => exact Double.value?_eq_none_iff d
  | int i => simp [Value.number?, Value.isNaN]
  | _ => cases h

theorem Value.exists_number {v : Value} (h : v.isNumber = true) (hnan : v.isNaN = false) :
    ∃ p, v.number? = some p := by
  apply Option.ne_none_iff_exists'.mp
  intro hnone
  rw [(Value.number?_eq_none_iff h).mp hnone] at hnan
  cases hnan

/-- NaN is neither equal to a number nor before or behind it. -/
theorem comparisons_nan {a b : Value} (ha : a.isNumber = true) (hb : b.isNumber = true)
    (h : a.isNaN = true ∨ b.isNaN = true) :
    a.rawEq b = false ∧ lessThan a b = .ok false ∧ lessEqual a b = .ok false := by
  have hint : ∀ d, Double.isNaN d = true → ∀ i, Double.toInt64? d ≠ some i := by
    intro d hnan i hi
    rw [Double.isNaN_of_toInt? (Double.toInt64?_eq_some hi)] at hnan
    cases hnan
  cases a with
  | int i =>
    cases b with
    | int j => simp [Value.isNaN] at h
    | float d =>
      have hd : Double.isNaN d = true := h.resolve_left Bool.false_ne_true
      simp [Value.rawEq, lessThan, lessEqual, Arithmetic.intLessFloat,
        Arithmetic.intLessEqualFloat, hd, hint d hd]
    | _ => cases hb
  | float d =>
    cases b with
    | int j =>
      have hd : Double.isNaN d = true := h.resolve_right Bool.false_ne_true
      simp [Value.rawEq, lessThan, lessEqual, Arithmetic.floatLessInt,
        Arithmetic.floatLessEqualInt, hd, hint d hd]
    | float e =>
      rcases h with hd | he
      · have hd : Double.isNaN d = true := hd
        simp [Value.rawEq, lessThan, lessEqual, Double.eq, Double.lt, Double.le, hd]
      · have he : Double.isNaN e = true := he
        simp [Value.rawEq, lessThan, lessEqual, Double.eq, Double.lt, Double.le, he]
    | _ => cases hb
  | _ => cases ha

/-! ## All values -/

/-- Equal values have the same key; nil, which has none, is equal to itself. -/
theorem Value.rawEq_iff_key?_eq {a b : Value} (ha : a.isNaN = false) (hb : b.isNaN = false) :
    a.rawEq b = true ↔ a.key? = b.key? := by
  have hnil : ∀ {v : Value}, v.isNaN = false → v.key? = none → v = .nil := by
    intro v hv hnone
    rcases Value.key?_eq_none_iff.mp hnone with hnil | ⟨d, rfl, hnan⟩
    · exact hnil
    · rw [Value.isNaN, hnan] at hv
      cases hv
  cases hk : a.key? with
  | some k => rw [Value.rawEq_iff_key? hk, eq_comm]
  | none =>
    rw [hnil ha hk]
    constructor
    · intro h
      cases b with
      | nil => rfl
      | _ => cases h
    · intro h
      rw [hnil hb h.symm]
      rfl

/-- Doubles that are equal without being integers have the same bits. -/
theorem Double.eq_of_no_integer {a b : Double} (h : Double.eq a b = true) (hi : Double.toInt64? a = none) :
    a = b := by
  obtain ⟨hnan, -, heq | ⟨hzero, -⟩⟩ := (Double.eq_iff a b).mp h
  · exact heq
  · have hself : Double.eq a Double.zero = true :=
      (Double.eq_iff a Double.zero).mpr ⟨hnan, by decide, .inr ⟨hzero, by decide⟩⟩
    rw [Double.toInt64?_of_eq hself] at hi
    cases hi

theorem Value.hash_eq_of_rawEq (h : Hashing) {a b : Value} (heq : a.rawEq b = true) :
    a.hash h = b.hash h := by
  cases a with
  | int i =>
    cases b with
    | int j => rw [beq_iff_eq.mp heq]
    | float d => simp only [Value.hash, beq_iff_eq.mp heq]
    | _ => cases heq
  | float d =>
    cases b with
    | int j => simp only [Value.hash, beq_iff_eq.mp heq]
    | float e =>
      cases hi : Double.toInt64? d with
      | some i => simp only [Value.hash, hi, ← Double.toInt64?_of_eq heq]
      | none => rw [Double.eq_of_no_integer heq hi]
    | _ => cases heq
  | nil =>
    cases b with
    | nil => rfl
    | _ => cases heq
  | _ =>
    cases b <;> first | rw [beq_iff_eq.mp heq] | cases heq

/-- The bytes of a text. -/
def Value.bytes (s : String) : List Nat := s.toList.map Char.toNat

theorem lt_iff_bytes (s t : String) : s < t ↔ Value.bytes s < Value.bytes t := by
  have hmap : ∀ l m : List Char, l < m ↔ l.map Char.toNat < m.map Char.toNat := by
    intro l
    induction l with
    | nil =>
      intro m
      cases m with
      | nil => simp
      | cons d m => simp
    | cons c l ih =>
      intro m
      cases m with
      | nil => simp
      | cons d m =>
        have hlt : c < d ↔ c.toNat < d.toNat := Iff.rfl
        have heq : c = d ↔ c.toNat = d.toNat := Char.toNat_inj.symm
        simp only [List.map_cons, List.cons_lt_cons_iff, ih m, hlt, heq]
  exact Iff.trans Iff.rfl (hmap _ _)

theorem comparison_error {a b : Value} (hnumbers : ¬ (a.isNumber = true ∧ b.isNumber = true))
    (htexts : ¬ (a.kind = .string ∧ b.kind = .string)) :
    lessThan a b = .error (.comparison a.kind b.kind) ∧
      lessEqual a b = .error (.comparison a.kind b.kind) := by
  cases a <;> cases b <;>
    first
    | exact ⟨rfl, rfl⟩
    | exact absurd ⟨rfl, rfl⟩ hnumbers
    | exact absurd ⟨rfl, rfl⟩ htexts

/-! ## The laws -/

/-- Equality, order and hashes of values. -/
structure Value.ComparisonLaws : Prop where
  equivalence : Equivalence fun a b : { v : Value // v.isNaN = false } => a.val.rawEq b.val = true
  hashes : ∀ (h : Hashing) (a b : Value), a.rawEq b = true → a.hash h = b.hash h
  /-- numbers are compared by their exact values -/
  numbers : ∀ (a b : Value) (p q : Extended), a.number? = some p → b.number? = some q →
    lessThan a b = .ok (decide (p < q)) ∧ lessEqual a b = .ok (decide (p ≤ q)) ∧
      (a.rawEq b = true ↔ p = q)
  /-- of two numbers one is less, or they are equal, and only one of these holds -/
  trichotomy : ∀ a b : Value, a.isNumber = true → b.isNumber = true →
    a.isNaN = false → b.isNaN = false →
    ∃ less greater, lessThan a b = .ok less ∧ lessThan b a = .ok greater ∧
      [less, a.rawEq b, greater].count true = 1
  transitive : ∀ a b c : Value, a.isNumber = true → b.isNumber = true → c.isNumber = true →
    lessThan a b = .ok true → lessThan b c = .ok true → lessThan a c = .ok true
  /-- texts are in the order of their bytes -/
  texts : ∀ s t : String, lessThan (.str s) (.str t) = .ok (decide (bytes s < bytes t)) ∧
    (lessEqual (.str s) (.str t) = .ok true ↔ lessThan (.str t) (.str s) = .ok false) ∧
    ∃ r, lessEqual (.str s) (.str t) = .ok r
  nan : ∀ a b : Value, a.isNumber = true → b.isNumber = true → (a.isNaN = true ∨ b.isNaN = true) →
    a.rawEq b = false ∧ lessThan a b = .ok false ∧ lessEqual a b = .ok false
  /-- nothing else can be compared -/
  others : ∀ a b : Value, ¬ (a.isNumber = true ∧ b.isNumber = true) →
    ¬ (a.kind = .string ∧ b.kind = .string) →
    lessThan a b = .error (.comparison a.kind b.kind) ∧
      lessEqual a b = .error (.comparison a.kind b.kind)

theorem Value.comparisons_exact : Value.ComparisonLaws where
  equivalence := by
    have hiff : ∀ a b : { v : Value // v.isNaN = false },
        a.val.rawEq b.val = true ↔ a.val.key? = b.val.key? :=
      fun a b => Value.rawEq_iff_key?_eq a.property b.property
    simp only [hiff]
    exact ⟨fun _ => rfl, Eq.symm, Eq.trans⟩
  hashes h a b heq := Value.hash_eq_of_rawEq h heq
  numbers a b p q ha hb :=
    ⟨lessThan_numbers ha hb, lessEqual_numbers ha hb, Value.rawEq_iff ha hb⟩
  trichotomy a b ha hb hna hnb := by
    obtain ⟨p, hp⟩ := Value.exists_number ha hna
    obtain ⟨q, hq⟩ := Value.exists_number hb hnb
    refine ⟨_, _, lessThan_numbers hp hq, lessThan_numbers hq hp, ?_⟩
    have heq := Value.rawEq_iff hp hq
    rcases lt_trichotomy p q with hlt | rfl | hgt
    · have hne : a.rawEq b = false := Bool.eq_false_iff.mpr fun h => hlt.ne (heq.mp h)
      simp [hlt, hne, not_lt_of_gt hlt]
    · simp [heq.mpr rfl]
    · have hne : a.rawEq b = false := Bool.eq_false_iff.mpr fun h => hgt.ne' (heq.mp h)
      simp [hgt, hne, not_lt_of_gt hgt]
  transitive a b c ha hb hc hab hbc := by
    have hnan : ∀ {v w : Value}, v.isNumber = true → w.isNumber = true → lessThan v w = .ok true →
        v.isNaN = false ∧ w.isNaN = false := by
      intro v w hv hw hlt
      rw [← Bool.not_eq_true, ← Bool.not_eq_true, ← not_or]
      intro h
      rw [(comparisons_nan hv hw h).2.1] at hlt
      cases hlt
    obtain ⟨p, hp⟩ := Value.exists_number ha (hnan ha hb hab).1
    obtain ⟨q, hq⟩ := Value.exists_number hb (hnan ha hb hab).2
    obtain ⟨r, hr⟩ := Value.exists_number hc (hnan hb hc hbc).2
    rw [lessThan_numbers hp hq] at hab
    rw [lessThan_numbers hq hr] at hbc
    rw [lessThan_numbers hp hr]
    have hpq : p < q := of_decide_eq_true (Except.ok.inj hab)
    have hqr : q < r := of_decide_eq_true (Except.ok.inj hbc)
    rw [decide_eq_true (hpq.trans hqr)]
  texts s t := by
    refine ⟨ok_decide (decide_eq_true_iff.trans (lt_iff_bytes s t)), ?_, _, rfl⟩
    simp only [lessEqual, lessThan, Except.ok.injEq, Bool.not_eq_true']
  nan a b ha hb h := comparisons_nan ha hb h
  others a b hnumbers htexts := comparison_error hnumbers htexts

end LuaMachine
