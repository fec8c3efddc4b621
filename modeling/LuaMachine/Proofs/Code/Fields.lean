import LuaMachine.Instruction
/-! # The fields of an instruction

What is written to a field is what is read from it, as long as it fits. A word is looked at as a
number: its fields are its digits, so reading one is a division and writing several is a sum.

* `toNat_abc`, `toNat_abx`, `toNat_ofAx`: the words as sums of their fields.
* `opcode?_abc`, `a_abc` and the like: reading what was written.
* `opcode?_withSignedAx`, `signedAx_withSignedAx` and the like: what patching a target changes.
-/
set_option autoImplicit false

namespace LuaMachine

namespace Opcode

theorem ofNumber?_number (op : Opcode) : ofNumber? op.number = some op := by
  cases op <;> rfl

theorem number_lt (op : Opcode) : op.number < 256 := by
  cases op <;> decide

end Opcode

namespace Instruction

/-! ## Words as numbers -/

theorem opcode?_eq (i : Instruction) : i.opcode? = Opcode.ofNumber? (i.word.toNat % 256) := by
  simp only [opcode?, UInt32.toNat_and]
  congr 1
  exact Nat.and_two_pow_sub_one_eq_mod _ 8

theorem a_eq (i : Instruction) : i.a = i.word.toNat / 256 % 256 := by
  simp only [a, UInt32.toNat_and, UInt32.toNat_shiftRight]
  have h := Nat.and_two_pow_sub_one_eq_mod (i.word.toNat >>> 8) 8
  simpa [Nat.shiftRight_eq_div_pow] using h

theorem b_eq (i : Instruction) : i.b = i.word.toNat / 65536 % 256 := by
  simp only [b, UInt32.toNat_and, UInt32.toNat_shiftRight]
  have h := Nat.and_two_pow_sub_one_eq_mod (i.word.toNat >>> 16) 8
  simpa [Nat.shiftRight_eq_div_pow] using h

theorem c_eq (i : Instruction) : i.c = i.word.toNat / 16777216 := by
  simp [c, Nat.shiftRight_eq_div_pow]

theorem bx_eq (i : Instruction) : i.bx = i.word.toNat / 65536 := by
  simp [bx, Nat.shiftRight_eq_div_pow]

theorem ax_eq (i : Instruction) : i.ax = i.word.toNat / 256 := by
  simp [ax, Nat.shiftRight_eq_div_pow]

theorem toNat_field {bits shift : Nat} (h : bits + shift ≤ 32) (n : Nat) :
    (field bits shift n).toNat = (n % (1 <<< bits)) <<< shift := by
  have hlt : (n % (1 <<< bits)) <<< shift < 2 ^ 32 := by
    rw [Nat.one_shiftLeft, Nat.shiftLeft_eq]
    calc n % 2 ^ bits * 2 ^ shift < 2 ^ bits * 2 ^ shift :=
          Nat.mul_lt_mul_of_pos_right (Nat.mod_lt _ (Nat.two_pow_pos bits)) (Nat.two_pow_pos shift)
      _ = 2 ^ (bits + shift) := (Nat.pow_add 2 bits shift).symm
      _ ≤ 2 ^ 32 := Nat.pow_le_pow_right (by decide) h
  simpa [field] using Nat.mod_eq_of_lt hlt

theorem toNat_lowest {bits : Nat} (h : bits ≤ 32) (i : Instruction) :
    (lowest bits i).toNat = i.word.toNat % (1 <<< bits) := by
  have hlt : i.word.toNat % (1 <<< bits) < 2 ^ 32 := by
    rw [Nat.one_shiftLeft]
    exact Nat.lt_of_lt_of_le (Nat.mod_lt _ (Nat.two_pow_pos bits))
      (Nat.pow_le_pow_right (by decide) h)
  simpa [lowest] using Nat.mod_eq_of_lt hlt

/-- Fields that do not overlap are added. -/
theorem or_shiftLeft {low k : Nat} (h : low < 1 <<< k) (high : Nat) :
    low ||| high <<< k = low + high * (1 <<< k) := by
  rw [Nat.one_shiftLeft] at h ⊢
  rw [Nat.or_comm, ← Nat.shiftLeft_add_eq_or_of_lt h, Nat.shiftLeft_eq, Nat.add_comm]

theorem toNat_abc (op : Opcode) (a b c : Nat) :
    (abc op a b c).word.toNat =
      op.number + a % 256 * 256 + b % 256 * 65536 + c % 256 * 16777216 := by
  have hop := op.number_lt
  simp only [abc, UInt32.toNat_or]
  rw [toNat_field (by decide), toNat_field (by decide), toNat_field (by decide),
    toNat_field (by decide)]
  simp only [Nat.shiftLeft_zero, Nat.reduceShiftLeft, Nat.mod_eq_of_lt hop]
  rw [or_shiftLeft (k := 8) hop, or_shiftLeft (k := 16) (by simp only [Nat.reduceShiftLeft]; omega),
    or_shiftLeft (k := 24) (by simp only [Nat.reduceShiftLeft]; omega)]
  simp only [Nat.reduceShiftLeft]

theorem toNat_abx (op : Opcode) (a bx : Nat) :
    (abx op a bx).word.toNat = op.number + a % 256 * 256 + bx % 65536 * 65536 := by
  have hop := op.number_lt
  simp only [abx, UInt32.toNat_or]
  rw [toNat_field (by decide), toNat_field (by decide), toNat_field (by decide)]
  simp only [Nat.shiftLeft_zero, Nat.reduceShiftLeft, Nat.mod_eq_of_lt hop]
  rw [or_shiftLeft (k := 8) hop, or_shiftLeft (k := 16) (by simp only [Nat.reduceShiftLeft]; omega)]
  simp only [Nat.reduceShiftLeft]

theorem toNat_ofAx (op : Opcode) (n : Nat) :
    (ofAx op n).word.toNat = op.number + n % 16777216 * 256 := by
  have hop := op.number_lt
  simp only [ofAx, UInt32.toNat_or]
  rw [toNat_field (by decide), toNat_field (by decide)]
  simp only [Nat.shiftLeft_zero, Nat.reduceShiftLeft, Nat.mod_eq_of_lt hop]
  rw [or_shiftLeft (k := 8) hop]
  simp only [Nat.reduceShiftLeft]

theorem toNat_withSignedBx (i : Instruction) (n : Int) :
    (i.withSignedBx n).word.toNat =
      i.word.toNat % 65536 + biased maxSignedBx (maxBx + 1) n % 65536 * 65536 := by
  simp only [withSignedBx, UInt32.toNat_or]
  rw [toNat_lowest (by decide), toNat_field (by decide), or_shiftLeft (Nat.mod_lt _ (by decide))]
  simp only [Nat.reduceShiftLeft]

theorem toNat_withSignedAx (i : Instruction) (n : Int) :
    (i.withSignedAx n).word.toNat =
      i.word.toNat % 256 + biased maxSignedAx (maxAx + 1) n % 16777216 * 256 := by
  simp only [withSignedAx, UInt32.toNat_or]
  rw [toNat_lowest (by decide), toNat_field (by decide), or_shiftLeft (Nat.mod_lt _ (by decide))]
  simp only [Nat.reduceShiftLeft]

theorem biased_eq {half : Nat} {n : Int} (h : n.natAbs ≤ half) :
    (biased half (2 * half + 2) n : Int) = n + half := by
  have hmod : (n + half) % ((2 * half + 2 : Nat) : Int) = n + half :=
    Int.emod_eq_of_lt (by omega) (by omega)
  unfold biased
  rw [hmod]
  omega

/-! ## Reading what was written -/

section Reading

variable (op : Opcode) {a b c n : Nat}

@[simp] theorem opcode?_abc : (abc op a b c).opcode? = some op := by
  have hop := op.number_lt
  have h : (abc op a b c).word.toNat % 256 = op.number := by
    rw [toNat_abc]
    omega
  rw [opcode?_eq, h, op.ofNumber?_number]

@[simp] theorem opcode?_abx : (abx op a n).opcode? = some op := by
  have hop := op.number_lt
  have h : (abx op a n).word.toNat % 256 = op.number := by
    rw [toNat_abx]
    omega
  rw [opcode?_eq, h, op.ofNumber?_number]

@[simp] theorem opcode?_ofAx : (ofAx op n).opcode? = some op := by
  have hop := op.number_lt
  have h : (ofAx op n).word.toNat % 256 = op.number := by
    rw [toNat_ofAx]
    omega
  rw [opcode?_eq, h, op.ofNumber?_number]

@[simp] theorem opcode?_asbx (d : Int) : (asbx op a d).opcode? = some op := opcode?_abx op

@[simp] theorem opcode?_ofSignedAx (d : Int) : (ofSignedAx op d).opcode? = some op :=
  opcode?_ofAx op

theorem a_abc (ha : a < 256) : (abc op a b c).a = a := by
  have hop := op.number_lt
  rw [a_eq, toNat_abc]
  omega

theorem b_abc (hb : b < 256) : (abc op a b c).b = b := by
  have hop := op.number_lt
  rw [b_eq, toNat_abc]
  omega

theorem c_abc (hc : c < 256) : (abc op a b c).c = c := by
  have hop := op.number_lt
  rw [c_eq, toNat_abc]
  omega

theorem a_abx (ha : a < 256) : (abx op a n).a = a := by
  have hop := op.number_lt
  rw [a_eq, toNat_abx]
  omega

theorem bx_abx (hn : n ≤ maxBx) : (abx op a n).bx = n := by
  have hop := op.number_lt
  have hn' : n ≤ 65535 := hn
  rw [bx_eq, toNat_abx]
  omega

theorem ax_ofAx : (ofAx op n).ax = n % (maxAx + 1) := by
  have hop := op.number_lt
  have hmax : maxAx + 1 = 16777216 := rfl
  rw [ax_eq, toNat_ofAx, hmax]
  omega

theorem a_asbx (ha : a < 256) (d : Int) : (asbx op a d).a = a := a_abx op ha

theorem signedAx_ofSignedAx {d : Int} (hd : d.natAbs ≤ maxSignedAx) :
    (ofSignedAx op d).signedAx = d := by
  have hop := op.number_lt
  have hb : (biased maxSignedAx (maxAx + 1) d : Int) = d + maxSignedAx := biased_eq hd
  have hd' : d.natAbs ≤ 8388607 := hd
  have hhalf : (maxSignedAx : Int) = 8388607 := rfl
  rw [signedAx, ax_eq, ofSignedAx, toNat_ofAx]
  omega

theorem signedBx_asbx {d : Int} (hd : d.natAbs ≤ maxSignedBx) :
    (asbx op a d).signedBx = d := by
  have hop := op.number_lt
  have hb : (biased maxSignedBx (maxBx + 1) d : Int) = d + maxSignedBx := biased_eq hd
  have hd' : d.natAbs ≤ 32767 := hd
  have hhalf : (maxSignedBx : Int) = 32767 := rfl
  rw [signedBx, bx_eq, asbx, toNat_abx]
  omega

end Reading

/-! ## Patching -/

section Patching

variable (i : Instruction) {d : Int}

@[simp] theorem opcode?_withSignedAx : (i.withSignedAx d).opcode? = i.opcode? := by
  rw [opcode?_eq, opcode?_eq, toNat_withSignedAx]
  congr 1
  omega

@[simp] theorem opcode?_withSignedBx : (i.withSignedBx d).opcode? = i.opcode? := by
  rw [opcode?_eq, opcode?_eq, toNat_withSignedBx]
  congr 1
  omega

@[simp] theorem a_withSignedBx : (i.withSignedBx d).a = i.a := by
  rw [a_eq, a_eq, toNat_withSignedBx]
  omega

theorem signedAx_withSignedAx (hd : d.natAbs ≤ maxSignedAx) :
    (i.withSignedAx d).signedAx = d := by
  have hb : (biased maxSignedAx (maxAx + 1) d : Int) = d + maxSignedAx := biased_eq hd
  have hd' : d.natAbs ≤ 8388607 := hd
  have hhalf : (maxSignedAx : Int) = 8388607 := rfl
  rw [signedAx, ax_eq, toNat_withSignedAx]
  omega

theorem signedBx_withSignedBx (hd : d.natAbs ≤ maxSignedBx) :
    (i.withSignedBx d).signedBx = d := by
  have hb : (biased maxSignedBx (maxBx + 1) d : Int) = d + maxSignedBx := biased_eq hd
  have hd' : d.natAbs ≤ 32767 := hd
  have hhalf : (maxSignedBx : Int) = 32767 := rfl
  rw [signedBx, bx_eq, toNat_withSignedBx]
  omega

end Patching

end Instruction
end LuaMachine
