import LuaMachine.Proofs.Number.Equality
import Mathlib.Data.Rat.Floor
import Mathlib.Order.WithBot
import Mathlib.Data.Int.ConditionallyCompleteOrder
import Mathlib.Tactic.Linarith
/-! # The exact value of a double

A double that is no NaN is a fraction or one of the infinities. Doubles are compared through keys,
so keys have to grow with these values; and the nearest double to a value that some double has is
that double.

* `Double.value?`: the value of a double.
* `Double.lt_iff`, `Double.le_iff`, `Double.eq_iff_value`: comparison is comparison of values.
* `Double.floorInt?_eq`, `Double.ceilInt?_eq`, `Double.toInt?_eq_some_iff`: whole numbers.
* `Double.value?_ofQuarters`: the nearest double to a whole number that is not too large.
-/
set_option autoImplicit false

namespace LuaMachine
namespace Double

/-! ## Keys and units -/

/-- The units of a finite double whose bits, the sign apart, are `n`. -/
def unitsOfBits (n : Nat) : Nat :=
  (if n / 2 ^ 52 = 0 then n % 2 ^ 52 else 2 ^ 52 + n % 2 ^ 52) * 2 ^ (n / 2 ^ 52 - 1)

theorem unitsOfBits_strictMono : StrictMono unitsOfBits := by
  apply strictMono_nat_of_lt_succ
  intro n
  unfold unitsOfBits
  by_cases hcarry : n % 2 ^ 52 + 1 < 2 ^ 52
  · -- the exponent stays
    have hdiv : (n + 1) / 2 ^ 52 = n / 2 ^ 52 := by omega
    have hmod : (n + 1) % 2 ^ 52 = n % 2 ^ 52 + 1 := by omega
    rw [hdiv, hmod]
    apply Nat.mul_lt_mul_of_pos_right _ (Nat.two_pow_pos _)
    split <;> omega
  · have hdiv : (n + 1) / 2 ^ 52 = n / 2 ^ 52 + 1 := by omega
    have hmod : (n + 1) % 2 ^ 52 = 0 := by omega
    rw [hdiv, hmod, if_neg (Nat.succ_ne_zero _), Nat.add_sub_cancel]
    by_cases hzero : n / 2 ^ 52 = 0
    · rw [if_pos hzero, hzero]
      omega
    · obtain ⟨k, hk⟩ := Nat.exists_eq_succ_of_ne_zero hzero
      rw [if_neg hzero, hk, Nat.succ_sub_one, Nat.pow_succ 2 k, Nat.mul_comm (2 ^ k) 2, ← Nat.mul_assoc]
      apply Nat.mul_lt_mul_of_pos_right _ (Nat.two_pow_pos k)
      omega

theorem absUnits_eq (d : Double) : absUnits d = unitsOfBits (d.bits.toNat % 2 ^ 63) := by
  have hdiv : d.bits.toNat % 2 ^ 63 / 2 ^ 52 = exponentField d := by
    rw [exponentField_eq]
    omega
  have hmod : d.bits.toNat % 2 ^ 63 % 2 ^ 52 = fractionField d := by
    rw [fractionField_eq]
    omega
  rw [unitsOfBits, absUnits, hdiv, hmod]

/-- The units of a finite double, from its key. -/
def unitsOfKey (k : Int) : Int := withSign (k < 0) (unitsOfBits k.natAbs)

theorem unitsOfKey_strictMono : StrictMono unitsOfKey := by
  intro a b hab
  have hzero : unitsOfBits 0 = 0 := by decide
  unfold unitsOfKey withSign
  simp only [decide_eq_true_iff]
  split
  next ha =>
    split
    next hb =>
      have := unitsOfBits_strictMono (show b.natAbs < a.natAbs by omega)
      omega
    next hb =>
      have := unitsOfBits_strictMono (show 0 < a.natAbs by omega)
      omega
  next ha =>
    rw [if_neg (by omega)]
    have := unitsOfBits_strictMono (show a.natAbs < b.natAbs by omega)
    omega

def units (d : Double) : Int := withSign (isNegative d) (absUnits d)

theorem units_eq (d : Double) : units d = unitsOfKey (key d).toInt := by
  have hzero : unitsOfBits 0 = 0 := by decide
  rw [units, absUnits_eq, unitsOfKey, key_toInt]
  cases isNegative d with
  | false =>
    rw [if_neg Bool.false_ne_true, Int.natAbs_natCast,
      decide_eq_false (Int.not_lt.mpr (Int.natCast_nonneg _))]
  | true =>
    rw [if_pos rfl, Int.natAbs_neg, Int.natAbs_natCast]
    -- minus zero has no units on either reading
    by_cases hpos : 0 < d.bits.toNat % 2 ^ 63
    · rw [decide_eq_true (by omega)]
    · rw [show d.bits.toNat % 2 ^ 63 = 0 by omega, hzero]
      rfl

/-! ## Values -/

/-- A fraction, or an infinity. -/
abbrev Extended := WithBot (WithTop ℚ)

def Extended.ofRat (q : ℚ) : Extended := (q : WithTop ℚ)

theorem Extended.ofRat_lt {p q : ℚ} : ofRat p < ofRat q ↔ p < q := by
  simp [ofRat]

theorem Extended.ofRat_le {p q : ℚ} : ofRat p ≤ ofRat q ↔ p ≤ q := by
  simp [ofRat]

theorem Extended.bot_lt_ofRat (q : ℚ) : ⊥ < ofRat q := WithBot.bot_lt_coe _

theorem Extended.ofRat_lt_top (q : ℚ) : ofRat q < ⊤ := by
  apply WithBot.coe_lt_coe.mpr
  exact WithTop.coe_lt_top q

/-- The exact value of a double that is a number. -/
def value? (d : Double) : Option Extended :=
  match decode d with
  | .notANumber => none
  | .infinite negative => some (if negative then ⊥ else ⊤)
  | .finite negative m e => some (.ofRat (withSign negative (m * 2 ^ e) / 2 ^ oneShift))

/-- The value of a double from its key. -/
def valueOfKey (k : Int) : Extended :=
  if k ≤ -infinityBits then ⊥
  else if infinityBits ≤ k then ⊤
  else .ofRat (unitsOfKey k / 2 ^ oneShift)

theorem valueOfKey_strictMonoOn :
    StrictMonoOn valueOfKey (Set.Icc (-(infinityBits : Int)) infinityBits) := by
  intro a ha b hb hab
  have hlow := ha.1
  have hhigh := hb.2
  unfold valueOfKey
  rw [if_neg (show ¬ b ≤ -(infinityBits : Int) by omega),
    if_neg (show ¬ (infinityBits : Int) ≤ a by omega)]
  split
  next =>
    split
    · exact bot_lt_top
    · exact Extended.bot_lt_ofRat _
  next =>
    split
    · exact Extended.ofRat_lt_top _
    · apply Extended.ofRat_lt.2
      apply div_lt_div_of_pos_right _ (by positivity)
      exact_mod_cast unitsOfKey_strictMono hab

theorem value?_eq_none_iff (d : Double) : value? d = none ↔ isNaN d = true := by
  rw [← Bool.not_eq_false, isNaN_eq_false_iff, value?]
  by_cases he : exponentField d = 0x7FF
  · unfold decode
    dsimp only
    rw [if_pos he]
    by_cases hf : fractionField d = 0
    · simp [hf]
    · simp [hf, he]
  · rw [decode_finite he]
    simp [he]

theorem value?_eq {d : Double} (h : isNaN d = false) :
    value? d = some (valueOfKey (key d).toInt) := by
  have hmag := magnitude_eq d
  have hfrac := fractionField_lt d
  have hinf : infinityBits = 0x7FF * 2 ^ 52 := by decide
  have hkey := key_toInt d
  by_cases he : exponentField d = 0x7FF
  · have hf : fractionField d = 0 := ((isNaN_eq_false_iff d).mp h).resolve_left (absurd he)
    unfold value? decode valueOfKey
    dsimp only
    rw [if_pos he, if_pos hf]
    cases hneg : isNegative d with
    | false =>
      rw [hneg, if_neg Bool.false_ne_true] at hkey
      rw [if_neg (by omega), if_pos (by omega)]
      rfl
    | true =>
      rw [hneg, if_pos rfl] at hkey
      rw [if_pos (by omega)]
      rfl
  · have he' : exponentField d < 0x7FF := by
      have := exponentField_eq d
      omega
    have hbound : ¬ (key d).toInt ≤ -(infinityBits : Int) ∧ ¬ (infinityBits : Int) ≤ (key d).toInt := by
      split at hkey <;> omega
    rw [value?, decode_finite he, valueOfKey, if_neg hbound.1, if_neg hbound.2, ← units_eq]
    rfl

theorem key_mem {d : Double} (h : isNaN d = false) :
    (key d).toInt ∈ Set.Icc (-(infinityBits : Int)) infinityBits := by
  have hmag := mt (isNaN_iff d).mpr (Bool.eq_false_iff.mp h)
  have hinf : infinityBits = 0x7FF * 2 ^ 52 := by decide
  have hkey := key_toInt d
  constructor <;> split at hkey <;> omega

/-! ## Comparison -/

section

variable {a b : Double} {p q : Extended}

theorem isNaN_of_value? (h : value? a = some p) : isNaN a = false := by
  apply Bool.eq_false_iff.mpr
  intro hnan
  rw [(value?_eq_none_iff a).mpr hnan] at h
  cases h

theorem valueOfKey_of_value? (h : value? a = some p) : p = valueOfKey (key a).toInt := by
  have heq := value?_eq (isNaN_of_value? h)
  rw [h] at heq
  exact Option.some.inj heq

theorem lt_iff (ha : value? a = some p) (hb : value? b = some q) : lt a b = true ↔ p < q := by
  have hna := isNaN_of_value? ha
  have hnb := isNaN_of_value? hb
  rw [valueOfKey_of_value? ha, valueOfKey_of_value? hb,
    (valueOfKey_strictMonoOn).lt_iff_lt (key_mem hna) (key_mem hnb), lt, hna, hnb]
  simp [Int64.lt_iff_toInt_lt]

theorem le_iff (ha : value? a = some p) (hb : value? b = some q) : le a b = true ↔ p ≤ q := by
  have hna := isNaN_of_value? ha
  have hnb := isNaN_of_value? hb
  rw [valueOfKey_of_value? ha, valueOfKey_of_value? hb,
    (valueOfKey_strictMonoOn).le_iff_le (key_mem hna) (key_mem hnb), le, hna, hnb]
  simp [Int64.le_iff_toInt_le]

theorem eq_iff_value (ha : value? a = some p) (hb : value? b = some q) : eq a b = true ↔ p = q := by
  have hna := isNaN_of_value? ha
  have hnb := isNaN_of_value? hb
  rw [valueOfKey_of_value? ha, valueOfKey_of_value? hb,
    (valueOfKey_strictMonoOn).injOn.eq_iff (key_mem hna) (key_mem hnb), eq, hna, hnb]
  simp [Int64.toInt_inj]

end

/-! ## Whole numbers -/

theorem withSign_mul (negative : Bool) (n k : Nat) :
    withSign negative (n * k) = withSign negative n * (k : Int) := by
  cases negative <;> simp [withSign]

theorem withSign_not (negative : Bool) (n : Nat) : withSign (!negative) n = -withSign negative n := by
  cases negative <;> simp [withSign]

theorem withSign_inj_iff {negative : Bool} {n : Nat} {i : Int} :
    withSign negative n = i ↔ n = i.natAbs ∧ withSign negative i.natAbs = i := by
  constructor
  · rintro rfl
    cases negative <;> simp [withSign]
  · rintro ⟨rfl, h⟩
    exact h

/-- The quotient that is rounded down, of a whole number with a sign. -/
theorem withSign_ediv (negative : Bool) (m : Nat) {k : Nat} (hk : 0 < k) :
    withSign negative m / (k : Int) =
      if negative then (if m / k * k = m then -((m / k : Nat) : Int) else -((m / k : Nat) : Int) - 1)
      else ((m / k : Nat) : Int) := by
  cases negative with
  | false => exact (Int.natCast_ediv m k).symm
  | true =>
    have hk' : (0 : Int) < k := by exact_mod_cast hk
    have hsum : (k : Int) * (m / k : Nat) + (m % k : Nat) = m := by exact_mod_cast Nat.div_add_mod m k
    have hlt := Nat.mod_lt m hk
    rw [if_pos rfl, withSign, if_pos rfl]
    split
    next hexact =>
      have hexact' : ((m / k : Nat) : Int) * k = m := by exact_mod_cast hexact
      apply ((Int.ediv_emod_unique hk').mpr ⟨?_, Int.le_refl 0, hk'⟩).1
      rw [Int.mul_neg, Int.mul_comm, hexact', Int.zero_add]
    next hrest =>
      have hpos : 0 < m % k := by
        apply Nat.pos_of_ne_zero
        intro hzero
        exact hrest (Nat.div_mul_cancel (Nat.dvd_of_mod_eq_zero hzero))
      apply ((Int.ediv_emod_unique (r := (k : Int) - (m % k : Nat)) hk').mpr ⟨?_, by omega, by omega⟩).1
      rw [Int.mul_sub, Int.mul_neg]
      omega

/-- Units are a fraction of the number one, whatever their exponent. -/
theorem units_div (negative : Bool) (m : Nat) {e : Nat} (he : ¬ oneShift ≤ e) :
    withSign negative (m * 2 ^ e) / (2 : Int) ^ oneShift =
      withSign negative m / ((2 ^ (oneShift - e) : Nat) : Int) := by
  have hpow : ((2 : Int) ^ oneShift) = ((2 ^ (oneShift - e) : Nat) : Int) * ((2 ^ e : Nat) : Int) := by
    rw [← Int.natCast_mul, ← Nat.pow_add, Nat.sub_add_cancel (Nat.le_of_not_le he)]
    exact (Int.natCast_pow 2 oneShift).symm
  rw [hpow, withSign_mul]
  exact Int.mul_ediv_mul_of_pos_left _ _ (by exact_mod_cast Nat.two_pow_pos e)

theorem floorInt_eq_ediv (negative : Bool) (m e : Nat) :
    floorInt negative m e = withSign negative (m * 2 ^ e) / (2 : Int) ^ oneShift := by
  unfold floorInt
  rw [show (1074 : Nat) = oneShift from rfl]
  split
  next he =>
    have hpow : ((2 : Int) ^ oneShift) ≠ 0 := by positivity
    conv => rhs; rw [← Nat.sub_add_cancel he, Nat.pow_add, ← Nat.mul_assoc, withSign_mul]
    rw [Int.natCast_pow, Nat.cast_ofNat, Int.mul_ediv_cancel _ hpow, Nat.shiftLeft_eq]
  next he =>
    rw [units_div negative m he, withSign_ediv negative m (Nat.two_pow_pos _)]
    simp only [Nat.shiftRight_eq_div_pow, Nat.shiftLeft_eq]

theorem floor_units (i : Int) : ⌊(i : ℚ) / 2 ^ oneShift⌋ = i / (2 : Int) ^ oneShift := by
  have h := Rat.floor_intCast_div_natCast i (2 ^ oneShift)
  push_cast at h
  exact h

variable {d : Double} {q : ℚ}

/-- How a double whose value is a fraction is decoded. -/
theorem decode_of_value? (h : value? d = some (.ofRat q)) :
    ∃ negative m e, decode d = .finite negative m e ∧
      q = (withSign negative (m * 2 ^ e) : ℚ) / 2 ^ oneShift := by
  unfold value? at h
  split at h
  next => cases h
  next negative _ =>
    have heq := Option.some.inj h
    cases negative with
    | true => exact absurd heq (ne_of_lt (Extended.bot_lt_ofRat q))
    | false => exact absurd heq (ne_of_gt (Extended.ofRat_lt_top q))
  next negative m e hd =>
    refine ⟨negative, m, e, hd, ?_⟩
    have heq := Option.some.inj h
    exact (WithTop.coe_injective (WithBot.coe_injective heq)).symm

theorem floorInt?_eq (h : value? d = some (.ofRat q)) : floorInt? d = some ⌊q⌋ := by
  obtain ⟨negative, m, e, hd, rfl⟩ := decode_of_value? h
  have hfloor : floorInt? d = some (floorInt negative m e) := by rw [floorInt?, hd]
  rw [hfloor, floor_units, floorInt_eq_ediv]

theorem ceilInt?_eq (h : value? d = some (.ofRat q)) : ceilInt? d = some ⌈q⌉ := by
  obtain ⟨negative, m, e, hd, rfl⟩ := decode_of_value? h
  have hceil : ceilInt? d = some (-floorInt (!negative) m e) := by rw [ceilInt?, hd]
  have hneg : -((withSign negative (m * 2 ^ e) : ℚ) / 2 ^ oneShift) =
      (withSign (!negative) (m * 2 ^ e) : ℚ) / 2 ^ oneShift := by
    rw [withSign_not, Int.cast_neg, neg_div]
  rw [hceil, ← neg_neg ⌈_⌉, ← Int.floor_neg, hneg, floor_units, floorInt_eq_ediv]

theorem ofInt_units {n : Int} {i : Int} :
    (n : ℚ) / 2 ^ oneShift = i ↔ n = i * (2 : Int) ^ oneShift := by
  rw [div_eq_iff (by positivity)]
  exact_mod_cast Iff.rfl

/-- A double is the whole number that is its value, if it is one. -/
theorem toInt?_eq_some_iff {i : Int} : toInt? d = some i ↔ value? d = some (.ofRat i) := by
  constructor
  · intro h
    obtain ⟨hfinite, n, hn, rfl⟩ := toInt?_units h
    unfold absUnits at hn
    rw [value?, decode_finite hfinite]
    dsimp only
    rw [hn, ofInt_units.2]
    rw [withSign_mul]
    push_cast
    rfl
  · intro h
    obtain ⟨negative, m, e, hd, hi⟩ := decode_of_value? h
    have hunits := ofInt_units.1 hi.symm
    have hfloor := floorInt_eq_ediv negative m e
    rw [hunits, Int.mul_ediv_cancel _ (by positivity)] at hfloor
    rw [toInt?, hd]
    dsimp only
    rw [show (1074 : Nat) = oneShift from rfl]
    split
    next he =>
      unfold floorInt at hfloor
      rw [show (1074 : Nat) = oneShift from rfl, if_pos he] at hfloor
      rw [hfloor]
    next he =>
      -- the units of one are the last ones of the mantissa
      have hm : withSign negative m = i * ((2 ^ (oneShift - e) : Nat) : Int) := by
        apply Int.eq_of_mul_eq_mul_right (show ((2 ^ e : Nat) : Int) ≠ 0 by positivity)
        rw [← withSign_mul, hunits, Int.mul_assoc, ← Int.natCast_mul, ← Nat.pow_add,
          Nat.sub_add_cancel (Nat.le_of_not_le he)]
        push_cast
        rfl
      obtain ⟨hsize, hsign⟩ := withSign_inj_iff.mp hm
      rw [Int.natAbs_mul, Int.natAbs_natCast] at hsize
      have hquotient : m >>> (oneShift - e) = i.natAbs := by
        rw [hsize, Nat.shiftRight_eq_div_pow, Nat.mul_div_cancel _ (Nat.two_pow_pos _)]
      rw [hquotient, Nat.shiftLeft_eq, if_pos hsize.symm]
      rw [hsize, withSign_mul] at hm
      exact congrArg some (Int.eq_of_mul_eq_mul_right (by positivity) hm)

theorem toInt64?_eq_some_iff {i : Int64} : toInt64? d = some i ↔ value? d = some (.ofRat i.toInt) := by
  rw [← toInt?_eq_some_iff]
  constructor
  · exact toInt64?_eq_some
  · intro h
    have hmax : Int64.maxValue.toInt = 2 ^ 63 - 1 := rfl
    have hlt := Int64.toInt_lt i
    rw [toInt64?, h, Option.bind_some, int64?,
      if_pos ⟨Int64.minValue_le_toInt i, by omega⟩, Int64.ofInt_toInt]

/-! ## The nearest double -/

/-- The bits of a nearest double, with the sign beside them. -/
theorem ofQuarters_bits (negative : Bool) (m e : Nat) :
    (ofQuarters negative m e).bits.toNat % 2 ^ 63 = bitsOfQuarters m e ∧
      isNegative (ofQuarters negative m e) = negative := by
  have hlt : bitsOfQuarters m e < 2 ^ 63 := by
    have hinf : infinityBits < 2 ^ 63 := by decide
    unfold bitsOfQuarters
    dsimp only
    split <;> omega
  have hbits : (bitsOfQuarters m e).toUInt64.toNat = bitsOfQuarters m e :=
    Nat.mod_eq_of_lt (Nat.lt_trans hlt (by decide))
  have hnegative : ((bitsOfQuarters m e).toUInt64 ||| 0x8000000000000000).toNat =
      2 ^ 63 * 1 + bitsOfQuarters m e := by
    rw [Nat.two_pow_add_eq_or_of_lt hlt, UInt64.toNat_or, hbits]
    exact Nat.or_comm _ _
  rw [Bool.eq_iff_iff, isNegative_iff]
  unfold ofQuarters
  cases negative with
  | false =>
    dsimp only
    rw [if_neg Bool.false_ne_true, hbits]
    exact ⟨Nat.mod_eq_of_lt hlt, by simpa using hlt⟩
  | true =>
    dsimp only
    rw [if_pos rfl, hnegative]
    exact ⟨by omega, by simp⟩

theorem unitsOfBits_add {k c : Nat} (hc : c < 2 ^ 53) (h : k = 0 ∨ 2 ^ 52 ≤ c) :
    unitsOfBits (k * 2 ^ 52 + c) = c * 2 ^ k := by
  unfold unitsOfBits
  by_cases hlow : c < 2 ^ 52
  · have hk : k = 0 := by omega
    subst hk
    rw [show (0 * 2 ^ 52 + c) / 2 ^ 52 = 0 by omega, show (0 * 2 ^ 52 + c) % 2 ^ 52 = c by omega,
      if_pos rfl]
  · rw [show (k * 2 ^ 52 + c) / 2 ^ 52 = k + 1 by omega,
      show (k * 2 ^ 52 + c) % 2 ^ 52 = c - 2 ^ 52 by omega, if_neg (Nat.succ_ne_zero k),
      Nat.add_sub_cancel, show 2 ^ 52 + (c - 2 ^ 52) = c by omega]

theorem halfEven_exact (c s : Nat) : halfEven (c * 2 ^ s) s = c := by
  unfold halfEven
  dsimp only
  rw [Nat.shiftRight_eq_div_pow, Nat.mul_div_cancel _ (Nat.two_pow_pos s), Nat.shiftLeft_eq c s,
    Nat.sub_self]
  simp [Nat.shiftLeft_eq]

theorem log2_mul_two_pow {n : Nat} (hn : n ≠ 0) (k : Nat) : (n * 2 ^ k).log2 = n.log2 + k := by
  induction k with
  | zero => rw [Nat.pow_zero, Nat.mul_one, Nat.add_zero]
  | succ k ih =>
    have hne : n * 2 ^ k ≠ 0 := Nat.mul_ne_zero hn (Nat.two_pow_pos k).ne'
    rw [Nat.pow_succ, ← Nat.mul_assoc, Nat.mul_comm, Nat.log2_two_mul hne, ih, Nat.add_assoc]

/-- A value with a mantissa of 53 bits at most needs no rounding. -/
theorem bitsOfQuarters_exact {m e k c : Nat} (hm : m ≠ 0) (h : m * 2 ^ e = c * 2 ^ (k + 2))
    (hc : c < 2 ^ 53) (hk : k = 0 ∨ 2 ^ 52 ≤ c) (hmax : k < 0x7FE) :
    bitsOfQuarters m e = k * 2 ^ 52 + c := by
  have hbound : k * 2 ^ 52 + c ≤ infinityBits := by
    have hinf : infinityBits = 0x7FF * 2 ^ 52 := by decide
    omega
  have hc0 : c ≠ 0 := by
    rintro rfl
    rw [Nat.zero_mul] at h
    exact (Nat.mul_ne_zero hm (Nat.two_pow_pos e).ne') h
  have hlog : m.log2 + e = c.log2 + (k + 2) := by
    rw [← log2_mul_two_pow hm, ← log2_mul_two_pow hc0, h]
  have hl : max 2 (m.log2 + e - 52) = k + 2 := by
    rw [hlog]
    have hlt : c.log2 < 53 := (Nat.log2_lt hc0).mpr hc
    rcases hk with rfl | hk
    · omega
    · have hle : 52 ≤ c.log2 := (Nat.le_log2 hc0).mpr hk
      omega
  have hmantissa : (if k + 2 ≤ e then m <<< (e - (k + 2)) else halfEven m (k + 2 - e)) = c := by
    split
    next he =>
      rw [Nat.shiftLeft_eq]
      apply Nat.eq_of_mul_eq_mul_right (Nat.two_pow_pos (k + 2))
      rw [Nat.mul_assoc, ← Nat.pow_add, Nat.sub_add_cancel he, h]
    next he =>
      have hm' : m = c * 2 ^ (k + 2 - e) := by
        apply Nat.eq_of_mul_eq_mul_right (Nat.two_pow_pos e)
        rw [Nat.mul_assoc, ← Nat.pow_add, Nat.sub_add_cancel (Nat.le_of_not_le he), h]
      rw [hm', halfEven_exact]
  unfold bitsOfQuarters
  dsimp only
  rw [if_neg hm, hl, hmantissa, Nat.add_sub_cancel, Nat.shiftLeft_eq, Nat.min_eq_left hbound]

/-- Whole numbers up to `2 ^ 53` have a mantissa of 53 bits. -/
theorem exists_mantissa {n : Nat} (hpos : n ≠ 0) (hn : n ≤ 2 ^ 53) :
    ∃ k c, n * 2 ^ oneShift = c * 2 ^ k ∧ 2 ^ 52 ≤ c ∧ c < 2 ^ 53 ∧ k < 0x7FE := by
  by_cases hmax : n = 2 ^ 53
  · refine ⟨oneShift + 1, 2 ^ 52, ?_, Nat.le_refl _, by decide, by decide⟩
    rw [hmax, ← Nat.pow_add, ← Nat.pow_add, Nat.add_comm oneShift 1, ← Nat.add_assoc]
  · have hlog : n.log2 ≤ 52 := Nat.lt_succ_iff.mp ((Nat.log2_lt hpos).mpr (by omega))
    have hone : oneShift = 1074 := rfl
    refine ⟨oneShift - (52 - n.log2), n * 2 ^ (52 - n.log2), ?_, ?_, ?_, by omega⟩
    · rw [Nat.mul_assoc, ← Nat.pow_add, Nat.add_sub_cancel' (by omega)]
    · apply (Nat.le_log2 (Nat.mul_ne_zero hpos (Nat.two_pow_pos _).ne')).mp
      rw [log2_mul_two_pow hpos]
      omega
    · apply (Nat.log2_lt (Nat.mul_ne_zero hpos (Nat.two_pow_pos _).ne')).mp
      rw [log2_mul_two_pow hpos]
      omega

theorem value?_of_units {n : Nat} (hfinite : d.bits.toNat % 2 ^ 63 < infinityBits)
    (h : unitsOfBits (d.bits.toNat % 2 ^ 63) = n * 2 ^ oneShift) :
    value? d = some (.ofRat (withSign (isNegative d) n)) := by
  have hinf : infinityBits = 0x7FF * 2 ^ 52 := by decide
  have hmag := magnitude_eq d
  rw [← absUnits_eq, absUnits] at h
  rw [value?, decode_finite (by omega)]
  dsimp only
  rw [h, ofInt_units.mpr]
  rw [withSign_mul]
  push_cast
  rfl

/-- The nearest double to a whole number that is not too large is that number. -/
theorem value?_ofQuarters (negative : Bool) {m e n : Nat} (h : m * 2 ^ e = n * 2 ^ (oneShift + 2))
    (hn : n ≤ 2 ^ 53) : value? (ofQuarters negative m e) = some (.ofRat (withSign negative n)) := by
  obtain ⟨hbits, hsign⟩ := ofQuarters_bits negative m e
  have hinf : infinityBits = 0x7FF * 2 ^ 52 := by decide
  have hunits : bitsOfQuarters m e < infinityBits ∧
      unitsOfBits (bitsOfQuarters m e) = n * 2 ^ oneShift := by
    by_cases hzero : n = 0
    · have hm : m = 0 := by
        rw [hzero, Nat.zero_mul] at h
        exact (Nat.mul_eq_zero.mp h).resolve_right (Nat.two_pow_pos e).ne'
      rw [hm, hzero, Nat.zero_mul, bitsOfQuarters, if_pos rfl]
      exact ⟨by omega, by decide⟩
    · obtain ⟨k, c, heq, hlow, hhigh, hk⟩ := exists_mantissa hzero hn
      have hm : m ≠ 0 := by
        rintro rfl
        rw [Nat.zero_mul] at h
        exact Nat.mul_ne_zero hzero (Nat.two_pow_pos _).ne' h.symm
      rw [bitsOfQuarters_exact hm (k := k) (c := c) _ hhigh (.inr hlow) hk]
      · exact ⟨by omega, by rw [unitsOfBits_add hhigh (.inr hlow), heq]⟩
      · rw [h, Nat.pow_add, Nat.pow_add, ← Nat.mul_assoc, ← Nat.mul_assoc, heq]
  rw [value?_of_units (n := n), hsign]
  · rw [hbits]
    exact hunits.1
  · rw [hbits]
    exact hunits.2

theorem value?_ofInt {i : Int} (h : i.natAbs ≤ 2 ^ 53) : value? (ofInt i) = some (.ofRat i) := by
  unfold ofInt
  rw [value?_ofQuarters (decide (i < 0)) (m := i.natAbs) (n := i.natAbs) _ h]
  · congr
    unfold withSign
    simp only [decide_eq_true_iff]
    split <;> omega
  · exact congrArg (i.natAbs * 2 ^ ·) (show 1076 = oneShift + 2 from rfl)

end Double
end LuaMachine
