import LuaMachine.Arithmetic
import Mathlib.Data.Int.ModEq
import Mathlib.Data.Rat.Floor
import Mathlib.Tactic.Linarith
/-! # Operators on integers

Sums, differences, products and negations of integers wrap. Quotients round down and remainders go
with them, although the machine's own division truncates; shifts go in both directions. No step on
the way to any of these leaves the range of the integers, but for the additions, multiplications and
negations that are meant to wrap.

* `Arithmetic.Stepwise`: the same operators with every signed step checked.
* `Arithmetic.toInt_floorDiv`, `Arithmetic.toInt_floorMod`: division and remainder.
* `Arithmetic.shifted`: a shift by any whole number of places.
* `Operator.IntegerLaws`, `Operator.apply_integers`: the operators on two integers.
-/
set_option autoImplicit false

namespace LuaMachine
namespace Arithmetic

/-! ## Rounding down -/

theorem toInt_eq_zero_iff (a : Int64) : a.toInt = 0 ↔ a = 0 := Int64.toInt_inj (y := 0)

/-- The exclusive or of two integers is negative just if one of them is. -/
theorem xor_lt_zero_iff (a b : Int64) : a ^^^ b < 0 ↔ (a.toInt < 0 ↔ ¬ b.toInt < 0) := by
  have hsign : ∀ x : Int64, x.toBitVec.msb = decide (x.toInt < 0) := fun x => BitVec.msb_eq_toInt
  have hmsb : (a ^^^ b).toBitVec.msb = (a.toBitVec.msb ^^ b.toBitVec.msb) := by
    rw [Int64.toBitVec_xor, BitVec.msb_xor]
  rw [hsign, hsign, hsign] at hmsb
  have hzero : (0 : Int64).toInt = 0 := rfl
  rw [Int64.lt_iff_toInt_lt, hzero]
  by_cases ha : a.toInt < 0 <;> by_cases hb : b.toInt < 0 <;> simp [ha, hb] at hmsb ⊢ <;> omega

/-- Rounding down instead of truncating takes one off if the quotient is negative and not whole. -/
theorem fdiv_eq_of_tdiv {a b : Int} (hb : b ≠ 0) :
    a.fdiv b = if a.tmod b ≠ 0 ∧ (a < 0 ↔ ¬ b < 0) then a.tdiv b - 1 else a.tdiv b := by
  have hdvd : b ∣ a ↔ a.tmod b = 0 := Int.dvd_iff_tmod_eq_zero
  rw [Int.fdiv_eq_tdiv]
  rcases Int.lt_or_gt_of_ne hb with hneg | hpos
  · rw [Int.sign_eq_neg_one_of_neg hneg]
    split_ifs <;> omega
  · rw [Int.sign_eq_one_of_pos hpos]
    split_ifs <;> omega

/-- A remainder that truncation leaves has the sign of the dividend. -/
theorem tmod_neg_iff {a b : Int} (h : a.tmod b ≠ 0) : a.tmod b < 0 ↔ a < 0 := by
  rcases Int.lt_or_le a 0 with ha | ha
  · have hnonneg := Int.tmod_nonneg b (show 0 ≤ -a by omega)
    rw [Int.neg_tmod] at hnonneg
    omega
  · have hnonneg := Int.tmod_nonneg b ha
    omega

theorem fmod_eq_of_tmod {a b : Int} (hb : b ≠ 0) :
    a.fmod b = if a.tmod b ≠ 0 ∧ (a.tmod b < 0 ↔ ¬ b < 0) then a.tmod b + b else a.tmod b := by
  have hdiv := fdiv_eq_of_tdiv (a := a) hb
  have hfloor := Int.mul_fdiv_add_fmod a b
  have htrunc := Int.mul_tdiv_add_tmod a b
  by_cases hne : a.tmod b ≠ 0
  · simp only [tmod_neg_iff hne]
    split_ifs at hdiv ⊢ with h
    · rw [hdiv, Int.mul_sub] at hfloor
      omega
    · rw [hdiv] at hfloor
      omega
  · rw [if_neg fun h => hne h.1] at hdiv ⊢
    rw [hdiv] at hfloor
    omega

theorem fmod_bounds_of_neg (a : Int) {b : Int} (hb : b < 0) : b < a.fmod b ∧ a.fmod b ≤ 0 := by
  have hlt := Int.fmod_lt_of_pos (-a) (show 0 < -b by omega)
  have hnonneg := Int.fmod_nonneg_of_pos (-a) (show 0 < -b by omega)
  rw [Int.neg_fmod_neg] at hlt hnonneg
  omega

/-- The quotient that is rounded down, as the floor of a fraction. -/
theorem fdiv_eq_floor (a : Int) {b : Int} (hb : b ≠ 0) : a.fdiv b = ⌊(a : ℚ) / b⌋ := by
  have hcancel : (a : ℚ) / b * b = a := div_mul_cancel₀ _ (by exact_mod_cast hb)
  have hsum : (b : ℚ) * a.fdiv b + a.fmod b = a := by exact_mod_cast Int.mul_fdiv_add_fmod a b
  symm
  rw [Int.floor_eq_iff]
  rcases Int.lt_or_gt_of_ne hb with hneg | hpos
  · have hlow : (b : ℚ) < a.fmod b := by exact_mod_cast (fmod_bounds_of_neg a hneg).1
    have hhigh : (a.fmod b : ℚ) ≤ 0 := by exact_mod_cast (fmod_bounds_of_neg a hneg).2
    have hb' : (b : ℚ) < 0 := by exact_mod_cast hneg
    constructor <;> nlinarith
  · have hlow : (0 : ℚ) ≤ a.fmod b := by exact_mod_cast Int.fmod_nonneg_of_pos a hpos
    have hhigh : (a.fmod b : ℚ) < b := by exact_mod_cast Int.fmod_lt_of_pos a hpos
    have hb' : (0 : ℚ) < b := by exact_mod_cast hpos
    constructor <;> nlinarith

/-! ## Division and remainder -/

theorem floorDiv_eq {a b : Int64} (hb : b ≠ 0) :
    ∃ q, floorDiv a b = .ok q ∧ q = Int64.ofInt (a.toInt.fdiv b.toInt) := by
  have hb' : b.toInt ≠ 0 := fun h => hb ((toInt_eq_zero_iff b).mp h)
  unfold floorDiv
  rw [if_neg hb]
  by_cases hone : b = -1
  · rw [if_pos hone, hone]
    refine ⟨_, rfl, ?_⟩
    have hneg : a.toInt.fdiv (-1) = -a.toInt := by
      rw [← Int.neg_fdiv_neg, Int.neg_neg, Int.fdiv_one]
    rw [show (-1 : Int64).toInt = -1 from rfl, hneg, Int64.ofInt_neg, Int64.ofInt_toInt]
  · rw [if_neg hone]
    refine ⟨_, rfl, ?_⟩
    have hquotient := Int64.toInt_div_of_ne_right a b hone
    simp only [ne_eq, ← toInt_eq_zero_iff, Int64.toInt_mod, xor_lt_zero_iff]
    rw [fdiv_eq_of_tdiv hb', ← hquotient]
    split_ifs
    · rw [Int64.ofInt_sub, Int64.ofInt_toInt]
      rfl
    · rw [Int64.ofInt_toInt]

theorem floorMod_eq {a b : Int64} (hb : b ≠ 0) :
    ∃ r, floorMod a b = .ok r ∧ r.toInt = a.toInt.fmod b.toInt := by
  have hb' : b.toInt ≠ 0 := fun h => hb ((toInt_eq_zero_iff b).mp h)
  unfold floorMod
  rw [if_neg hb]
  by_cases hone : b = -1
  · rw [if_pos hone, hone]
    refine ⟨_, rfl, ?_⟩
    rw [show (-1 : Int64).toInt = -1 from rfl, ← Int.neg_neg a.toInt, Int.neg_fmod_neg, Int.fmod_one]
    rfl
  · rw [if_neg hone]
    refine ⟨_, rfl, ?_⟩
    simp only [ne_eq, ← toInt_eq_zero_iff, Int64.toInt_mod, xor_lt_zero_iff]
    rw [fmod_eq_of_tmod hb']
    have hremainder := Int64.toInt_mod a b
    have hlow := Int64.le_toInt b
    have hhigh := Int64.toInt_lt b
    have hlow' := Int64.le_toInt (a % b)
    have hhigh' := Int64.toInt_lt (a % b)
    split_ifs with h
    · rw [Int64.toInt_add, hremainder, Int.bmod_eq_of_le] <;> omega
    · exact hremainder

/-! ## No step overflows -/

namespace Stepwise

/-- The quotient that truncates, if it is in range. -/
def quotient (a b : Int64) : Option Int64 := Double.int64? (a.toInt.tdiv b.toInt)

/-- A remainder is found by a division, so the quotient has to be in range as well. -/
def remainder (a b : Int64) : Option Int64 :=
  (quotient a b).bind fun _ => Double.int64? (a.toInt.tmod b.toInt)

def floorDiv (a b : Int64) : Option (Except RuntimeError Int64) :=
  if b = 0 then some (.error .divisionByZero)
  else if b = -1 then some (.ok (-a))
  else
    (quotient a b).bind fun q => (remainder a b).bind fun m =>
      if m ≠ 0 ∧ a ^^^ b < 0 then (Double.int64? (q.toInt - 1)).map .ok else some (.ok q)

def floorMod (a b : Int64) : Option (Except RuntimeError Int64) :=
  if b = 0 then some (.error .moduloByZero)
  else if b = -1 then some (.ok 0)
  else
    (remainder a b).bind fun m =>
      if m ≠ 0 ∧ m ^^^ b < 0 then (Double.int64? (m.toInt + b.toInt)).map .ok else some (.ok m)

/-- The number of places of a shift, which has to be less than the number of bits. -/
def places (n : Int64) : Option UInt64 := if 0 ≤ n ∧ n < 64 then some n.toUInt64 else none

def shiftLeft (x n : Int64) : Option Int64 :=
  if n ≤ -64 ∨ 64 ≤ n then some 0
  else if 0 ≤ n then (places n).map fun k => (x.toUInt64 <<< k).toInt64
  else
    (Double.int64? (-n.toInt)).bind fun k => (places k).map fun k => (x.toUInt64 >>> k).toInt64

def shiftRight (x n : Int64) : Option Int64 :=
  if n ≤ -64 ∨ 64 ≤ n then some 0 else (Double.int64? (-n.toInt)).bind (shiftLeft x)

variable {a b x n : Int64} {i : Int}

theorem int64?_of_toInt (h : a.toInt = i) : Double.int64? i = some a := by
  have hmax : Int64.maxValue.toInt = 2 ^ 63 - 1 := rfl
  have hhigh := Int64.toInt_lt a
  rw [Double.int64?, if_pos ⟨h ▸ Int64.minValue_le_toInt a, by omega⟩, ← h, Int64.ofInt_toInt]

theorem quotient_eq (hone : b ≠ -1) : quotient a b = some (a / b) :=
  int64?_of_toInt (Int64.toInt_div_of_ne_right a b hone)

theorem remainder_eq (hone : b ≠ -1) : remainder a b = some (a % b) := by
  rw [remainder, quotient_eq hone]
  exact int64?_of_toInt (Int64.toInt_mod a b)

/-- A quotient that is not whole is not the least integer. -/
theorem toInt_sub_one (hone : b ≠ -1) (hrest : a % b ≠ 0) :
    (a / b - 1).toInt = (a / b).toInt - 1 := by
  have hrest' : a.toInt.tmod b.toInt ≠ 0 := by
    rw [← Int64.toInt_mod]
    exact fun h => hrest ((toInt_eq_zero_iff _).mp h)
  have hsize : b.toInt.natAbs ≠ 1 := by
    intro h
    refine hrest' (Int.natAbs_eq_zero.mp ?_)
    rw [Int.natAbs_tmod, h, Nat.mod_one]
  have hle : (a.toInt.tdiv b.toInt).natAbs ≤ a.toInt.natAbs / 2 := by
    rw [Int.natAbs_tdiv]
    rcases Nat.eq_zero_or_pos b.toInt.natAbs with hz | hpos
    · rw [hz]
      exact Nat.le_trans (Nat.le_of_eq (Nat.div_zero _)) (Nat.zero_le _)
    · exact Nat.div_le_div_left (by omega) (by decide)
  have hquotient := Int64.toInt_div_of_ne_right a b hone
  have hlow := Int64.le_toInt a
  have hhigh := Int64.toInt_lt a
  rw [Int64.toInt_sub, show (1 : Int64).toInt = 1 from rfl, hquotient, Int.bmod_eq_of_le] <;> omega

theorem floorDiv_eq (a b : Int64) : floorDiv a b = some (Arithmetic.floorDiv a b) := by
  unfold floorDiv Arithmetic.floorDiv
  by_cases hzero : b = 0
  · rw [if_pos hzero, if_pos hzero]
  · rw [if_neg hzero, if_neg hzero]
    by_cases hone : b = -1
    · rw [if_pos hone, if_pos hone]
    rw [if_neg hone, if_neg hone, quotient_eq hone, remainder_eq hone, Option.bind_some, Option.bind_some]
    by_cases h : a % b ≠ 0 ∧ a ^^^ b < 0
    · rw [if_pos h, int64?_of_toInt (toInt_sub_one hone h.1)]
      simp only [if_pos h]
      rfl
    · rw [if_neg h]
      simp only [if_neg h]

theorem floorMod_eq (a b : Int64) : floorMod a b = some (Arithmetic.floorMod a b) := by
  unfold floorMod Arithmetic.floorMod
  by_cases hzero : b = 0
  · rw [if_pos hzero, if_pos hzero]
  · rw [if_neg hzero, if_neg hzero]
    by_cases hone : b = -1
    · rw [if_pos hone, if_pos hone]
    rw [if_neg hone, if_neg hone, remainder_eq hone, Option.bind_some]
    by_cases h : a % b ≠ 0 ∧ a % b ^^^ b < 0
    · have hsum : (a % b + b).toInt = (a % b).toInt + b.toInt := by
        have hsign := (xor_lt_zero_iff (a % b) b).mp h.2
        have hlow := Int64.le_toInt b
        have hhigh := Int64.toInt_lt b
        have hlow' := Int64.le_toInt (a % b)
        have hhigh' := Int64.toInt_lt (a % b)
        rw [Int64.toInt_add, Int.bmod_eq_of_le] <;> omega
      rw [if_pos h, int64?_of_toInt hsum]
      simp only [if_pos h]
      rfl
    · rw [if_neg h]
      simp only [if_neg h]

/-- A number of places that is not too large may change its sign. -/
theorem toInt_neg_of_lt (h : ¬ (n ≤ -64 ∨ 64 ≤ n)) : (-n).toInt = -n.toInt := by
  simp only [Int64.le_iff_toInt_le] at h
  have hlow : (-64 : Int64).toInt = -64 := rfl
  have hhigh : (64 : Int64).toInt = 64 := rfl
  rw [Int64.toInt_neg, Int.bmod_eq_of_le] <;> omega

theorem shiftLeft_eq (x n : Int64) : shiftLeft x n = some (Arithmetic.shiftLeft x n) := by
  unfold shiftLeft Arithmetic.shiftLeft
  have hzero : (0 : Int64).toInt = 0 := rfl
  have hlow : (-64 : Int64).toInt = -64 := rfl
  have hhigh : (64 : Int64).toInt = 64 := rfl
  split_ifs with hfar hleft
  · rfl
  · have hcount : 0 ≤ n ∧ n < 64 := by
      simp only [Int64.le_iff_toInt_le, Int64.lt_iff_toInt_lt] at *
      omega
    rw [places, if_pos hcount]
    rfl
  · have hneg := toInt_neg_of_lt hfar
    have hcount : 0 ≤ -n ∧ -n < 64 := by
      simp only [Int64.le_iff_toInt_le, Int64.lt_iff_toInt_lt] at *
      omega
    rw [int64?_of_toInt hneg, Option.bind_some, places, if_pos hcount]
    rfl

theorem shiftRight_eq (x n : Int64) : shiftRight x n = some (Arithmetic.shiftRight x n) := by
  unfold shiftRight Arithmetic.shiftRight
  split_ifs with hfar
  · rfl
  · rw [int64?_of_toInt (toInt_neg_of_lt hfar), Option.bind_some, shiftLeft_eq]

end Stepwise

/-! ## Shifts -/

/-- The bits moved by any whole number of places: to the left, or to the right if it is negative. -/
def shifted (x : Int64) (n : Int) : Int64 :=
  if 0 ≤ n then Int64.ofInt (x.toInt * 2 ^ n.toNat)
  else (UInt64.ofNat (x.toUInt64.toNat / 2 ^ (-n).toNat)).toInt64

theorem toNat_toUInt64 {n : Int64} (h : 0 ≤ n.toInt) : (n.toUInt64.toNat : Int) = n.toInt := by
  have hlt := n.toUInt64.toNat_lt
  have hcond := BitVec.toInt_eq_toNat_cond n.toBitVec
  have hnat : n.toUInt64.toNat = n.toBitVec.toNat := rfl
  have hint : n.toInt = n.toBitVec.toInt := rfl
  split at hcond <;> omega

/-- A shift by as many places as there are bits, or more, leaves nothing. -/
theorem shifted_of_far (x : Int64) {n : Int} (h : n ≤ -64 ∨ 64 ≤ n) : shifted x n = 0 := by
  unfold shifted
  rcases h with h | h
  · have hlt : x.toUInt64.toNat < 2 ^ (-n).toNat :=
      Nat.lt_of_lt_of_le x.toUInt64.toNat_lt (Nat.pow_le_pow_right (by decide) (by omega))
    rw [if_neg (by omega), Nat.div_eq_of_lt hlt]
    rfl
  · have hdvd : (2 ^ 64 : Int) ∣ x.toInt * 2 ^ n.toNat :=
      Dvd.dvd.mul_left (pow_dvd_pow 2 (by omega)) _
    rw [if_pos (by omega), ← Int64.toInt_inj, Int64.toInt_ofInt]
    exact Int.dvd_iff_bmod_eq_zero.mp hdvd

theorem shiftLeft_bits (x n : UInt64) (h : n.toNat < 64) :
    (x <<< n).toInt64 = Int64.ofInt (x.toInt64.toInt * 2 ^ n.toNat) := by
  have hbits : x <<< n = x * UInt64.ofNat (2 ^ n.toNat) := by
    rw [← UInt64.toNat_inj, UInt64.toNat_shiftLeft, UInt64.toNat_mul, UInt64.toNat_ofNat',
      Nat.mod_eq_of_lt h, Nat.shiftLeft_eq, Nat.mul_mod_mod]
  have hpower : Int64.ofInt (2 ^ n.toNat) = Int64.ofNat (2 ^ n.toNat) := by
    rw [← Int64.ofInt_eq_ofNat, Int.natCast_pow]
    rfl
  rw [hbits, UInt64.toInt64_mul, UInt64.toInt64_ofNat', Int64.ofInt_mul, Int64.ofInt_toInt, hpower]

theorem shiftRight_bits (x n : UInt64) (h : n.toNat < 64) :
    (x >>> n).toInt64 = (UInt64.ofNat (x.toNat / 2 ^ n.toNat)).toInt64 := by
  congr 1
  rw [← UInt64.toNat_inj, UInt64.toNat_shiftRight, Nat.mod_eq_of_lt h, Nat.shiftRight_eq_div_pow,
    UInt64.toNat_ofNat', Nat.mod_eq_of_lt]
  exact Nat.lt_of_le_of_lt (Nat.div_le_self _ _) x.toNat_lt

theorem shiftLeft_eq_shifted (x n : Int64) : shiftLeft x n = shifted x n.toInt := by
  have hzero : (0 : Int64).toInt = 0 := rfl
  have hlow : (-64 : Int64).toInt = -64 := rfl
  have hhigh : (64 : Int64).toInt = 64 := rfl
  unfold shiftLeft
  by_cases hfar : n ≤ -64 ∨ 64 ≤ n
  · rw [if_pos hfar, shifted_of_far]
    simpa only [Int64.le_iff_toInt_le, hlow, hhigh] using hfar
  rw [if_neg hfar]
  have hneg := Stepwise.toInt_neg_of_lt hfar
  simp only [Int64.le_iff_toInt_le, hzero, hlow, hhigh] at hfar ⊢
  unfold shifted
  by_cases hleft : 0 ≤ n.toInt
  · have hcount := toNat_toUInt64 hleft
    rw [if_pos hleft, if_pos hleft, shiftLeft_bits _ _ (by omega),
      show n.toUInt64.toNat = n.toInt.toNat by omega]
    rfl
  · have hcount := toNat_toUInt64 (n := -n) (by omega)
    rw [if_neg hleft, if_neg hleft, shiftRight_bits _ _ (by omega),
      show (-n).toUInt64.toNat = (-n.toInt).toNat by omega]

theorem shiftRight_eq_shifted (x n : Int64) : shiftRight x n = shifted x (-n.toInt) := by
  have hlow : (-64 : Int64).toInt = -64 := rfl
  have hhigh : (64 : Int64).toInt = 64 := rfl
  unfold shiftRight
  by_cases hfar : n ≤ -64 ∨ 64 ≤ n
  · rw [if_pos hfar, shifted_of_far]
    simp only [Int64.le_iff_toInt_le, hlow, hhigh] at hfar
    omega
  · rw [if_neg hfar, shiftLeft_eq_shifted, Stepwise.toInt_neg_of_lt hfar]

end Arithmetic

open Arithmetic

/-! ## The operators -/

/-- What the operators give for two integers. -/
structure Operator.IntegerLaws (a b : Int64) : Prop where
  sum : ∃ c : Int64, Operator.add.apply (.int a) (.int b) = .ok (.int c) ∧
    c.toInt ≡ a.toInt + b.toInt [ZMOD 2 ^ 64]
  difference : ∃ c : Int64, Operator.sub.apply (.int a) (.int b) = .ok (.int c) ∧
    c.toInt ≡ a.toInt - b.toInt [ZMOD 2 ^ 64]
  product : ∃ c : Int64, Operator.mul.apply (.int a) (.int b) = .ok (.int c) ∧
    c.toInt ≡ a.toInt * b.toInt [ZMOD 2 ^ 64]
  negation : ∃ c : Int64, Operator.unm.apply (.int a) (.int b) = .ok (.int c) ∧
    c.toInt ≡ -a.toInt [ZMOD 2 ^ 64]
  /-- the quotient is rounded down, and the remainder is what is left, with the sign of the
  divisor -/
  division : b ≠ 0 → ∃ q r : Int64, Operator.idiv.apply (.int a) (.int b) = .ok (.int q) ∧
    Operator.mod.apply (.int a) (.int b) = .ok (.int r) ∧
    q.toInt ≡ ⌊(a.toInt : ℚ) / b.toInt⌋ [ZMOD 2 ^ 64] ∧
    r.toInt = a.toInt - b.toInt * ⌊(a.toInt : ℚ) / b.toInt⌋ ∧
    (0 ≤ r.toInt ∧ r.toInt < b.toInt ∨ b.toInt < r.toInt ∧ r.toInt ≤ 0) ∧
    a.toInt ≡ b.toInt * q.toInt + r.toInt [ZMOD 2 ^ 64]
  noQuotient : (∃ e, Operator.idiv.apply (.int a) (.int b) = .error e) ↔ b = 0
  noRemainder : (∃ e, Operator.mod.apply (.int a) (.int b) = .error e) ↔ b = 0
  left : Operator.shl.apply (.int a) (.int b) = .ok (.int (shifted a b.toInt))
  right : Operator.shr.apply (.int a) (.int b) = .ok (.int (shifted a (-b.toInt)))
  /-- no step overflows that is not meant to wrap -/
  stepwise : Stepwise.floorDiv a b = some (floorDiv a b) ∧
    Stepwise.floorMod a b = some (floorMod a b) ∧
    Stepwise.shiftLeft a b = some (shiftLeft a b) ∧
    Stepwise.shiftRight a b = some (shiftRight a b)

/-- A number is congruent to the one that it wraps to. -/
theorem Arithmetic.bmod_modEq (i : Int) : i.bmod (2 ^ 64) ≡ i [ZMOD 2 ^ 64] := Int.bmod_emod

/-- An operator that may fail gives the integer that its function gives. -/
theorem Arithmetic.onNumbers_ok {f : Int64 → Int64 → Except RuntimeError Int64}
    (g : Double → Double → Double) {a b c : Int64} (h : f a b = .ok c) :
    onNumbers f g (.int a) (.int b) = .ok (.int c) := by
  simp only [onNumbers, h, Except.map]

theorem Operator.apply_integers (a b : Int64) : Operator.IntegerLaws a b where
  sum := ⟨a + b, rfl, Int64.toInt_add a b ▸ bmod_modEq _⟩
  difference := ⟨a - b, rfl, Int64.toInt_sub a b ▸ bmod_modEq _⟩
  product := ⟨a * b, rfl, Int64.toInt_mul a b ▸ bmod_modEq _⟩
  negation := ⟨-a, rfl, Int64.toInt_neg a ▸ bmod_modEq _⟩
  division hb := by
    have hb' : b.toInt ≠ 0 := fun h => hb ((toInt_eq_zero_iff b).mp h)
    obtain ⟨q, hq, hquotient⟩ := floorDiv_eq (a := a) hb
    obtain ⟨r, hr, hrest⟩ := floorMod_eq (a := a) hb
    have hsum := Int.mul_fdiv_add_fmod a.toInt b.toInt
    have hcongruent : q.toInt ≡ a.toInt.fdiv b.toInt [ZMOD 2 ^ 64] := by
      rw [hquotient, Int64.toInt_ofInt]
      exact bmod_modEq _
    refine ⟨q, r, onNumbers_ok floatFloorDiv hq, onNumbers_ok floatFloorMod hr, ?_⟩
    rw [← fdiv_eq_floor _ hb', hrest]
    refine ⟨hcongruent, by omega, ?_, ?_⟩
    · rcases Int.lt_or_gt_of_ne hb' with hneg | hpos
      · exact .inr (fmod_bounds_of_neg a.toInt hneg)
      · exact .inl ⟨Int.fmod_nonneg_of_pos _ hpos, Int.fmod_lt_of_pos _ hpos⟩
    · calc a.toInt = b.toInt * a.toInt.fdiv b.toInt + a.toInt.fmod b.toInt := hsum.symm
        _ ≡ b.toInt * q.toInt + a.toInt.fmod b.toInt [ZMOD 2 ^ 64] :=
          (hcongruent.symm.mul_left _).add_right _
  noQuotient := by
    constructor
    · rintro ⟨e, he⟩
      by_contra hb
      obtain ⟨q, hq, -⟩ := floorDiv_eq (a := a) hb
      cases he.symm.trans (onNumbers_ok floatFloorDiv hq)
    · rintro rfl
      exact ⟨_, rfl⟩
  noRemainder := by
    constructor
    · rintro ⟨e, he⟩
      by_contra hb
      obtain ⟨r, hr, -⟩ := floorMod_eq (a := a) hb
      cases he.symm.trans (onNumbers_ok floatFloorMod hr)
    · rintro rfl
      exact ⟨_, rfl⟩
  left := congrArg (fun c => Except.ok (Value.int c)) (shiftLeft_eq_shifted a b)
  right := congrArg (fun c => Except.ok (Value.int c)) (shiftRight_eq_shifted a b)
  stepwise := ⟨Stepwise.floorDiv_eq a b, Stepwise.floorMod_eq a b, Stepwise.shiftLeft_eq a b,
    Stepwise.shiftRight_eq a b⟩

end LuaMachine
