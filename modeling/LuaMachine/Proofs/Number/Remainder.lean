import LuaMachine.Proofs.Number.Exact
import LuaMachine.Proofs.Number.Integers
/-! # Remainders of doubles

The remainder of two doubles that are whole numbers is found by a division that truncates, and then
moved by the divisor. This rounds down, except that two negative operands leave a remainder which
already has the sign of the divisor and is moved all the same.

* `Double.value?_remainder`, `Double.value?_add`: no rounding on whole numbers that are not too large.
* `Arithmetic.value?_floatFloorMod`: where the remainder is the one that rounds down.
* `Arithmetic.floatFloorMod_of_neg`: the remainder of two negative numbers.
-/
set_option autoImplicit false

namespace LuaMachine
namespace Double

variable {x y : Double} {a b : Int}

theorem decode_whole (h : value? x = some (.ofRat a)) :
    ∃ negative m e, decode x = .finite negative m e ∧ m * 2 ^ e = a.natAbs * 2 ^ oneShift ∧
      withSign negative a.natAbs = a := by
  obtain ⟨negative, m, e, hdecode, hunits⟩ := decode_of_value? h
  have hunits := ofInt_units.mp hunits.symm
  obtain ⟨hsize, -⟩ := withSign_inj_iff.mp hunits
  have hpow : ((2 : Int) ^ oneShift).natAbs = 2 ^ oneShift := by
    rw [Int.natAbs_pow, show Int.natAbs 2 = 2 from rfl]
  rw [Int.natAbs_mul, hpow] at hsize
  refine ⟨negative, m, e, hdecode, hsize, ?_⟩
  rw [hsize, withSign_mul, Int.natCast_pow] at hunits
  exact Int.eq_of_mul_eq_mul_right (by positivity) hunits

/-- Units taken to a lower power of two. -/
theorem lower_units {m e low n : Nat} (hlow : low ≤ e) (h : m * 2 ^ e = n * 2 ^ oneShift) :
    (m <<< (e - low)) * 2 ^ low = n * 2 ^ oneShift := by
  rw [Nat.shiftLeft_eq, Nat.mul_assoc, ← Nat.pow_add, Nat.sub_add_cancel hlow, h]

theorem withSign_mod {negative : Bool} (h : withSign negative a.natAbs = a) :
    withSign negative (a.natAbs % b.natAbs) = a.tmod b := by
  have hmod : ∀ n : Nat, ((n : Int).tmod b) = ((n % b.natAbs : Nat) : Int) := by
    intro n
    rcases Int.natAbs_eq b with hb | hb <;> rw [hb]
    · rw [Int.natAbs_natCast]
      rfl
    · rw [Int.tmod_neg, Int.natAbs_neg, Int.natAbs_natCast]
      rfl
  cases negative with
  | false =>
    have ha : (a.natAbs : Int) = a := h
    rw [← ha, Int.natAbs_natCast, hmod]
    rfl
  | true =>
    have ha : -(a.natAbs : Int) = a := h
    rw [← ha, Int.natAbs_neg, Int.natAbs_natCast, Int.neg_tmod, hmod]
    rfl

theorem value?_remainder (hx : value? x = some (.ofRat a)) (hy : value? y = some (.ofRat b))
    (ha : a.natAbs ≤ 2 ^ 53) (hb : b ≠ 0) :
    value? (remainder x y) = some (.ofRat (a.tmod b : Int)) := by
  obtain ⟨negative, m, e, hdx, hm, hsign⟩ := decode_whole hx
  obtain ⟨_, n, f, hdy, hn, -⟩ := decode_whole hy
  have hn0 : n ≠ 0 := by
    rintro rfl
    rw [Nat.zero_mul] at hn
    exact Nat.mul_ne_zero (Int.natAbs_ne_zero.mpr hb) (Nat.two_pow_pos _).ne' hn.symm
  have hrest : ((m <<< (e - min e f)) % (n <<< (f - min e f))) * 2 ^ (min e f + 2) =
      (a.natAbs % b.natAbs) * 2 ^ (oneShift + 2) := by
    rw [Nat.pow_add, Nat.pow_add, ← Nat.mul_assoc, ← Nat.mul_assoc, ← Nat.mul_mod_mul_right,
      lower_units (Nat.min_le_left e f) hm, lower_units (Nat.min_le_right e f) hn,
      Nat.mul_mod_mul_right]
  have hvalue := value?_ofQuarters negative hrest (Nat.le_trans (Nat.mod_le _ _) ha)
  rw [withSign_mod hsign] at hvalue
  rw [remainder, hdx, hdy]
  dsimp only
  rw [if_neg hn0, hvalue]

theorem value?_add (hx : value? x = some (.ofRat a)) (hy : value? y = some (.ofRat b))
    (h : (a + b).natAbs ≤ 2 ^ 53) : value? (add x y) = some (.ofRat (a + b : Int)) := by
  obtain ⟨s, m, e, hdx, hm, hs⟩ := decode_whole hx
  obtain ⟨t, n, f, hdy, hn, ht⟩ := decode_whole hy
  rw [add, hdx, hdy]
  dsimp only
  generalize hsum : withSign s (m <<< (e - min e f)) + withSign t (n <<< (f - min e f)) = sum
  have hunits : sum * ((2 ^ min e f : Nat) : Int) = (a + b) * ((2 ^ oneShift : Nat) : Int) := by
    rw [← hsum, Int.add_mul, Int.add_mul, ← withSign_mul, ← withSign_mul,
      lower_units (Nat.min_le_left e f) hm, lower_units (Nat.min_le_right e f) hn, withSign_mul,
      withSign_mul, hs, ht]
  by_cases hzero : sum = 0
  · have hab : a + b = 0 := by
      rw [hzero, Int.zero_mul] at hunits
      exact (Int.mul_eq_zero.mp hunits.symm).resolve_right (by positivity)
    rw [if_pos hzero, hab]
    split
    · exact toInt?_eq_some_iff.mp (by decide)
    · exact toInt?_eq_some_iff.mp (by decide)
  · have hsize : sum.natAbs * 2 ^ (min e f + 2) = (a + b).natAbs * 2 ^ (oneShift + 2) := by
      have habs := congrArg Int.natAbs hunits
      rw [Int.natAbs_mul, Int.natAbs_mul, Int.natAbs_natCast, Int.natAbs_natCast] at habs
      rw [Nat.pow_add, Nat.pow_add, ← Nat.mul_assoc, ← Nat.mul_assoc, habs]
    have hsign : decide (sum < 0) = decide (a + b < 0) := by
      apply decide_eq_decide.mpr
      have hlow : (0 : Int) < ((2 ^ min e f : Nat) : Int) := by positivity
      have hone : (0 : Int) < ((2 ^ oneShift : Nat) : Int) := by positivity
      calc sum < 0 ↔ sum * ((2 ^ min e f : Nat) : Int) < 0 * ((2 ^ min e f : Nat) : Int) :=
            (mul_lt_mul_iff_left₀ hlow).symm
        _ ↔ (a + b) * ((2 ^ oneShift : Nat) : Int) < 0 * ((2 ^ oneShift : Nat) : Int) := by
            rw [hunits, Int.zero_mul, Int.zero_mul]
        _ ↔ a + b < 0 := mul_lt_mul_iff_left₀ hone
    rw [if_neg hzero, value?_ofQuarters _ hsize h, hsign]
    congr
    unfold withSign
    simp only [decide_eq_true_iff]
    split <;> omega

theorem lt_whole (hx : value? x = some (.ofRat a)) (hy : value? y = some (.ofRat b)) :
    lt x y = true ↔ a < b := by
  rw [lt_iff hx hy, Extended.ofRat_lt]
  exact Int.cast_lt

theorem eq_whole (hx : value? x = some (.ofRat a)) (hy : value? y = some (.ofRat b)) :
    eq x y = true ↔ a = b := by
  rw [eq_iff_value hx hy]
  simp [Extended.ofRat]

end Double

namespace Arithmetic

open Double

variable {x y : Double} {a b : Int}

/-- The test for moving the remainder by the divisor, on whole numbers. -/
theorem floatFloorMod_eq (hx : value? x = some (.ofRat a)) (hy : value? y = some (.ofRat b))
    (ha : a.natAbs ≤ 2 ^ 53) (hb : b ≠ 0) :
    floatFloorMod x y =
      if 0 < a.tmod b ∧ b < 0 ∨ a.tmod b < 0 then add (remainder x y) y else remainder x y := by
  have hrest := value?_remainder hx hy ha hb
  have hzero : value? zero = some (.ofRat (0 : Int)) := toInt?_eq_some_iff.mp (by decide)
  -- a remainder is never the divisor itself
  have hsmall : b ≠ a.tmod b := by
    intro h
    have hmod := Int.natAbs_tmod a b
    have hlt := Nat.mod_lt a.natAbs (Int.natAbs_pos.mpr hb)
    omega
  have heq : eq y (remainder x y) = false :=
    Bool.eq_false_iff.mpr fun h => hsmall ((eq_whole hy hrest).mp h)
  unfold floatFloorMod
  dsimp only
  simp only [lt_whole hzero hrest, lt_whole hy hzero, heq, Bool.not_false, Bool.and_true,
    lt_whole hrest hzero]
  split_ifs <;> first | rfl | omega

/-- The remainder of two whole numbers rounds down, unless both are negative. -/
theorem value?_floatFloorMod (hx : value? x = some (.ofRat a)) (hy : value? y = some (.ofRat b))
    (ha : a.natAbs ≤ 2 ^ 53) (hb : b.natAbs ≤ 2 ^ 53) (hzero : b ≠ 0)
    (hsign : ¬ (a < 0 ∧ b < 0) ∨ a.tmod b = 0) :
    value? (floatFloorMod x y) = some (.ofRat (a.fmod b : Int)) := by
  have hrest := value?_remainder hx hy ha hzero
  rw [floatFloorMod_eq hx hy ha hzero, fmod_eq_of_tmod hzero]
  by_cases hnone : a.tmod b = 0
  · rw [if_neg (by omega), if_neg (by omega), hrest]
  · have hneg := tmod_neg_iff hnone
    have hsize : (a.tmod b).natAbs < b.natAbs := by
      rw [Int.natAbs_tmod]
      exact Nat.mod_lt _ (Int.natAbs_pos.mpr hzero)
    by_cases hmove : a.tmod b ≠ 0 ∧ (a.tmod b < 0 ↔ ¬ b < 0)
    · rw [if_pos (by omega), if_pos hmove, value?_add hrest hy (by omega)]
    · rw [if_neg (by omega), if_neg hmove, hrest]

/-- Two negative numbers leave the remainder that rounds down, moved by the divisor. -/
theorem floatFloorMod_of_neg (hx : value? x = some (.ofRat a)) (hy : value? y = some (.ofRat b))
    (hsize : a.natAbs ≤ 2 ^ 53) (ha : a < 0) (hb : b < 0) (hrest : a.tmod b ≠ 0) :
    floatFloorMod x y = add (remainder x y) y ∧
      value? (remainder x y) = some (.ofRat (a.fmod b : Int)) := by
  have hneg := (tmod_neg_iff hrest).mpr ha
  constructor
  · rw [floatFloorMod_eq hx hy hsize (by omega), if_pos (.inr hneg)]
  · rw [fmod_eq_of_tmod (by omega), if_neg (by omega)]
    exact value?_remainder hx hy hsize (by omega)

/-- The remainder of minus five and minus three is minus five. -/
example : (floatFloorMod (ofInt (-5)) (ofInt (-3))).toInt? = some (-5) := by decide

end Arithmetic
end LuaMachine
