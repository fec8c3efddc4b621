import LuaMachine.Value
import Mathlib.Algebra.Ring.Nat
/-! # When doubles are equal

Two doubles that are numbers are equal when they have the same bits or are both zero. So a whole
number is one double, zeros of either sign apart.

* `Double.eq_iff`: equality in terms of bits.
* `Double.toInt64?_of_eq`, `Double.eq_of_toInt64?`: equal doubles are the same whole number.
-/
set_option autoImplicit false

namespace LuaMachine
namespace Double

/-! ## Fields -/

theorem magnitudeBits_toNat (d : Double) : (magnitudeBits d).toNat = d.bits.toNat % 2 ^ 63 := by
  rw [magnitudeBits, UInt64.toNat_and]
  exact Nat.and_two_pow_sub_one_eq_mod d.bits.toNat 63

theorem isNegative_iff (d : Double) : isNegative d = true ↔ 2 ^ 63 ≤ d.bits.toNat := by
  have hlt := d.bits.toNat_lt
  rw [isNegative, bne_iff_ne, ne_eq, ← UInt64.toNat_inj, UInt64.toNat_shiftRight]
  simp only [UInt64.reduceToNat, Nat.reduceMod, Nat.shiftRight_eq_div_pow]
  omega

theorem exponentField_eq (d : Double) : exponentField d = d.bits.toNat / 2 ^ 52 % 2 ^ 11 := by
  rw [exponentField, UInt64.toNat_and, UInt64.toNat_shiftRight]
  simp only [UInt64.reduceToNat, Nat.reduceMod, Nat.shiftRight_eq_div_pow]
  exact Nat.and_two_pow_sub_one_eq_mod _ 11

theorem fractionField_eq (d : Double) : fractionField d = d.bits.toNat % 2 ^ 52 := by
  rw [fractionField, UInt64.toNat_and]
  exact Nat.and_two_pow_sub_one_eq_mod _ 52

theorem fractionField_lt (d : Double) : fractionField d < 2 ^ 52 := by
  rw [fractionField_eq]
  exact Nat.mod_lt _ (by decide)

theorem isNaN_iff (d : Double) : isNaN d = true ↔ 0x7FF * 2 ^ 52 < d.bits.toNat % 2 ^ 63 := by
  rw [isNaN, decide_eq_true_iff, gt_iff_lt, UInt64.lt_iff_toNat_lt, magnitudeBits_toNat]
  exact Iff.rfl

/-- The bits apart from the sign, as the two fields that they consist of. -/
theorem magnitude_eq (d : Double) :
    d.bits.toNat % 2 ^ 63 = exponentField d * 2 ^ 52 + fractionField d := by
  rw [exponentField_eq, fractionField_eq]
  omega

theorem key_toInt (d : Double) :
    (key d).toInt =
      if isNegative d then -((d.bits.toNat % 2 ^ 63 : Nat) : Int)
      else ((d.bits.toNat % 2 ^ 63 : Nat) : Int) := by
  have hm : (magnitudeBits d).toInt64.toInt = ((d.bits.toNat % 2 ^ 63 : Nat) : Int) := by
    rw [← UInt64.ofNat_toNat (x := magnitudeBits d), UInt64.toInt64_ofNat', magnitudeBits_toNat,
      Int64.toInt_ofNat_of_lt (Nat.mod_lt _ (by decide))]
  unfold key
  dsimp only
  split
  next =>
    rw [Int64.toInt_neg, hm, Int.bmod_eq_of_le]
    · omega
    · omega
  next => exact hm

/-! ## Equality -/

/-- Equal doubles have the same bits, or are zeros. -/
theorem eq_iff (a b : Double) :
    eq a b = true ↔
      isNaN a = false ∧ isNaN b = false ∧
        (a = b ∨ a.bits.toNat % 2 ^ 63 = 0 ∧ b.bits.toNat % 2 ^ 63 = 0) := by
  have hbits : a = b ↔ a.bits.toNat = b.bits.toNat := by
    rw [UInt64.toNat_inj]
    exact ⟨fun h => by rw [h], fun h => by cases a; cases b; cases h; rfl⟩
  have hkey : key a = key b ↔
      a.bits.toNat = b.bits.toNat ∨ a.bits.toNat % 2 ^ 63 = 0 ∧ b.bits.toNat % 2 ^ 63 = 0 := by
    have ha := a.bits.toNat_lt
    have hb := b.bits.toNat_lt
    rw [← Int64.toInt_inj, key_toInt, key_toInt]
    simp only [isNegative_iff]
    split <;> split <;> omega
  rw [eq, Bool.and_eq_true, Bool.and_eq_true, Bool.not_eq_true', Bool.not_eq_true', beq_iff_eq,
    hkey, hbits, and_assoc]

/-! ## The exact reading -/

theorem isNaN_eq_false_iff (d : Double) :
    isNaN d = false ↔ exponentField d ≠ 0x7FF ∨ fractionField d = 0 := by
  have hmag := magnitude_eq d
  have he : exponentField d < 2 ^ 11 := by
    rw [exponentField_eq]
    exact Nat.mod_lt _ (by decide)
  have hf := fractionField_lt d
  rw [← Bool.not_eq_true, isNaN_iff, hmag]
  omega

/-- The mantissa and the power of two of a finite double. -/
theorem decode_finite {d : Double} (h : exponentField d ≠ 0x7FF) :
    decode d = .finite (isNegative d)
      (if exponentField d = 0 then fractionField d else 2 ^ 52 + fractionField d)
      (exponentField d - 1) := by
  unfold decode
  dsimp only
  rw [if_neg h]
  split
  next h0 => rw [h0]
  next h0 => rfl

/-- The size of a finite double in units. -/
def absUnits (d : Double) : Nat :=
  (if exponentField d = 0 then fractionField d else 2 ^ 52 + fractionField d) *
    2 ^ (exponentField d - 1)

theorem absUnits_inj {a b : Double} (h : absUnits a = absUnits b) :
    a.bits.toNat % 2 ^ 63 = b.bits.toNat % 2 ^ 63 := by
  -- a greater power of two is too much for any mantissa
  have hless : ∀ a b : Double, absUnits a = absUnits b → exponentField a ≤ exponentField b := by
    intro a b h
    refine Nat.le_of_not_lt fun hlt => ?_
    have ha := fractionField_lt a
    have hb := fractionField_lt b
    unfold absUnits at h
    rw [if_neg (by omega : exponentField a ≠ 0)] at h
    by_cases h0 : exponentField b = 0
    · rw [if_pos h0, h0, Nat.zero_sub, Nat.pow_zero, Nat.mul_one] at h
      have hpow := Nat.two_pow_pos (exponentField a - 1)
      have := Nat.le_mul_of_pos_right (2 ^ 52 + fractionField a) hpow
      omega
    · rw [if_neg h0, show exponentField a - 1 =
        (exponentField a - exponentField b - 1) + 1 + (exponentField b - 1) by omega,
        Nat.pow_add, ← Nat.mul_assoc] at h
      have heq := Nat.eq_of_mul_eq_mul_right (Nat.two_pow_pos _) h
      have hmul := Nat.mul_le_mul_left (2 ^ 52 + fractionField a)
        (Nat.pow_le_pow_right (by decide : 0 < 2)
          (Nat.le_add_left 1 (exponentField a - exponentField b - 1)))
      omega
  have he := Nat.le_antisymm (hless a b h) (hless b a h.symm)
  unfold absUnits at h
  rw [he] at h
  have hm := Nat.eq_of_mul_eq_mul_right (Nat.two_pow_pos _) h
  rw [magnitude_eq, magnitude_eq, he]
  split at hm <;> omega

/-- The number one is two to this power in units. -/
def oneShift : Nat := 1074

/-- A double that is a whole number has that many times the units of one. -/
theorem toInt?_units {d : Double} {i : Int} (h : toInt? d = some i) :
    exponentField d ≠ 0x7FF ∧
      ∃ n : Nat, absUnits d = n * 2 ^ oneShift ∧ i = withSign (isNegative d) n := by
  have hfinite : exponentField d ≠ 0x7FF := by
    intro he
    unfold toInt? decode at h
    dsimp only at h
    rw [if_pos he] at h
    split at h
    next heq =>
      split at heq
      · cases heq
      · cases heq
    next => cases h
  refine ⟨hfinite, ?_⟩
  rw [toInt?, decode_finite hfinite] at h
  dsimp only at h
  rw [show (1074 : Nat) = oneShift from rfl] at h
  unfold absUnits
  generalize (if exponentField d = 0 then fractionField d else 2 ^ 52 + fractionField d) = m at h ⊢
  split at h
  next he =>
    cases h
    refine ⟨m <<< (exponentField d - 1 - oneShift), ?_, rfl⟩
    rw [Nat.shiftLeft_eq, Nat.mul_assoc, ← Nat.pow_add, Nat.sub_add_cancel he]
  next he =>
    split at h
    next hm =>
      cases h
      refine ⟨m >>> (oneShift - (exponentField d - 1)), ?_, rfl⟩
      rw [Nat.shiftLeft_eq] at hm
      conv => rhs; rw [← Nat.sub_add_cancel (Nat.le_of_not_le he), Nat.pow_add, ← Nat.mul_assoc]
      rw [Nat.sub_add_cancel (Nat.le_of_not_le he), hm]
    next => cases h

theorem isNaN_of_toInt? {d : Double} {i : Int} (h : toInt? d = some i) : isNaN d = false :=
  (isNaN_eq_false_iff d).mpr (.inl (toInt?_units h).1)

/-- A whole number is one double, zeros of either sign apart. -/
theorem eq_of_toInt? {a b : Double} {i : Int} (ha : toInt? a = some i) (hb : toInt? b = some i) :
    eq a b = true := by
  refine (eq_iff a b).mpr ⟨isNaN_of_toInt? ha, isNaN_of_toInt? hb, ?_⟩
  obtain ⟨-, m, hm, hi⟩ := toInt?_units ha
  obtain ⟨-, n, hn, hj⟩ := toInt?_units hb
  have hmn : m = n := by
    rw [hi] at hj
    unfold withSign at hj
    split at hj <;> split at hj <;> omega
  subst hmn
  have hmag := absUnits_inj (hm.trans hn.symm)
  by_cases hzero : a.bits.toNat % 2 ^ 63 = 0
  · exact .inr ⟨hzero, hmag ▸ hzero⟩
  · left
    have hpos : m ≠ 0 := by
      rintro rfl
      have hz : absUnits zero = 0 := by decide
      exact hzero ((absUnits_inj (hm.trans (by rw [Nat.zero_mul, hz]))).trans (by decide))
    have hsign : isNegative a = isNegative b := by
      rw [hi] at hj
      cases h : isNegative a with
      | true =>
        cases h' : isNegative b with
        | true => rfl
        | false =>
          rw [h, h'] at hj
          have : -(m : Int) = m := hj
          omega
      | false =>
        cases h' : isNegative b with
        | true =>
          rw [h, h'] at hj
          have : (m : Int) = -m := hj
          omega
        | false => rfl
    rw [Bool.eq_iff_iff, isNegative_iff, isNegative_iff] at hsign
    have hla := a.bits.toNat_lt
    have hlb := b.bits.toNat_lt
    obtain ⟨x⟩ := a
    obtain ⟨y⟩ := b
    congr 1
    apply UInt64.toNat_inj.mp
    dsimp only at *
    omega

/-- Equal doubles are the same whole number, if they are one. -/
theorem toInt?_of_eq {a b : Double} (h : eq a b = true) : toInt? a = toInt? b := by
  obtain ⟨-, -, rfl | ⟨ha, hb⟩⟩ := (eq_iff a b).mp h
  · rfl
  · have hzero : ∀ d : Double, d.bits.toNat % 2 ^ 63 = 0 → toInt? d = some 0 := by
      intro d hd
      rw [magnitude_eq] at hd
      have he : exponentField d = 0 := by omega
      have hf : fractionField d = 0 := by omega
      rw [toInt?, decode_finite (by rw [he]; decide), he, hf]
      cases isNegative d <;> rfl
    rw [hzero a ha, hzero b hb]

theorem toInt64?_of_eq {a b : Double} (h : eq a b = true) : toInt64? a = toInt64? b := by
  rw [toInt64?, toInt64?, toInt?_of_eq h]

theorem toInt64?_eq_some {d : Double} {i : Int64} (h : toInt64? d = some i) :
    toInt? d = some i.toInt := by
  obtain ⟨n, hn, hi⟩ := Option.bind_eq_some_iff.mp h
  unfold int64? at hi
  split at hi
  next hrange =>
    cases hi
    rw [hn, Int64.toInt_ofInt_of_le]
    · exact hrange.1
    · have hmax : Int64.maxValue.toInt = 2 ^ 63 - 1 := rfl
      omega
  next => cases hi

theorem eq_of_toInt64? {a b : Double} {i : Int64} (ha : toInt64? a = some i)
    (hb : toInt64? b = some i) : eq a b = true :=
  eq_of_toInt? (toInt64?_eq_some ha) (toInt64?_eq_some hb)

end Double
end LuaMachine
