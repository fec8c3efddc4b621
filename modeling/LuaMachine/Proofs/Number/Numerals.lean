import LuaMachine.Number.Numeral
import Mathlib.Data.List.TakeWhile
import Mathlib.Data.Rat.Floor
/-! # Numerals of integers

A text reads as an integer just if it is a numeral of one, with blanks around it: hexadecimal digits,
which wrap, or decimal digits whose value is in range. The digits are taken one at a time into 64
bits, with a test that the next one keeps the value in bounds.

* `Numeral.IsInteger`: the numerals of an integer.
* `Numeral.takeDigits_eq`: the digits are taken just if their value is in bounds.
* `Numeral.read_integer`: the texts that read as integers, and the text that an integer is written as.
-/
set_option autoImplicit false

namespace LuaMachine
namespace Numeral

/-- The numerals of an integer: a sign, and digits in one of the two bases. -/
inductive IsInteger : List Char → Int64 → Prop where
  | hexadecimal (sign : List Char) (mark : Char) (digits : List Char) (hmark : mark = 'x' ∨ mark = 'X')
    (hsign : sign = [] ∨ sign = ['+'] ∨ sign = ['-']) (hne : digits ≠ [])
    (hdigits : ∀ c ∈ digits, isHexDigit c = true) :
    IsInteger (sign ++ '0' :: mark :: digits)
      (Int64.ofInt (Double.withSign (sign = ['-']) (valueIn 16 digits)))
  | decimal (sign digits : List Char) (i : Int64)
    (hsign : sign = [] ∨ sign = ['+'] ∨ sign = ['-']) (hne : digits ≠ [])
    (hdigits : ∀ c ∈ digits, c.isDigit = true)
    (hvalue : i.toInt = Double.withSign (sign = ['-']) (valueIn 10 digits)) :
    IsInteger (sign ++ digits) i

/-! ## Values of digits -/

/-- Digits taken on to a value. -/
theorem foldl_eq_valueIn (base n : Nat) (digits : List Char) :
    digits.foldl (fun n c => n * base + digitValue c) n = n * base ^ digits.length + valueIn base digits := by
  unfold valueIn
  induction digits generalizing n with
  | nil => simp
  | cons c digits ih =>
    rw [List.foldl_cons, List.foldl_cons, ih, ih (0 * base + digitValue c), List.length_cons, Nat.pow_succ,
      Nat.zero_mul, Nat.zero_add, Nat.add_mul, Nat.mul_assoc, Nat.mul_comm base, Nat.add_assoc]

theorem valueIn_cons (base : Nat) (c : Char) (digits : List Char) :
    valueIn base (c :: digits) = digitValue c * base ^ digits.length + valueIn base digits := by
  rw [valueIn, List.foldl_cons, foldl_eq_valueIn, Nat.zero_mul, Nat.zero_add]

theorem digitValue_lt_ten {c : Char} (h : c.isDigit = true) : digitValue c < 10 := by
  have hle : c.toNat ≤ '9'.toNat := by
    simp only [Char.isDigit, Bool.and_eq_true, decide_eq_true_iff] at h
    exact h.2
  rw [digitValue, if_pos h]
  have hnine : '9'.toNat = 57 := rfl
  have hzero : '0'.toNat = 48 := rfl
  omega

/-! ## Hexadecimal digits -/

/-- The digits of a base are taken one at a time into 64 bits, which keeps their value modulo `2 ^ 64`. -/
theorem toNat_bitsIn (base : UInt64) (digits : List Char) :
    (bitsIn base digits).toNat = valueIn base.toNat digits % 2 ^ 64 := by
  have hfold : ∀ (bits : UInt64) (n : Nat), bits.toNat = n % 2 ^ 64 →
      (digits.foldl (fun bits c => bits * base + (digitValue c).toUInt64) bits).toNat =
        digits.foldl (fun n c => n * base.toNat + digitValue c) n % 2 ^ 64 := by
    induction digits with
    | nil => exact fun _ _ h => h
    | cons c digits ih =>
      intro bits n h
      apply ih
      have hdigit : (digitValue c).toUInt64.toNat = digitValue c % 2 ^ 64 := UInt64.toNat_ofNat'
      rw [UInt64.toNat_add, UInt64.toNat_mul, hdigit, h, Nat.mod_add_mod, Nat.add_mod_mod,
        Nat.add_mod, Nat.mod_mul_mod, ← Nat.add_mod]
  exact hfold 0 0 rfl

theorem toNat_hexadecimalBits (digits : List Char) :
    (hexadecimalBits digits).toNat = valueIn 16 digits % 2 ^ 64 :=
  toNat_bitsIn 16 digits

theorem signed_eq (negative : Bool) {bits : UInt64} {n : Nat} (h : bits.toNat = n % 2 ^ 64) :
    signed negative bits = Int64.ofInt (Double.withSign negative n) := by
  have hbits : bits.toInt64 = Int64.ofInt n := by
    have heq : bits = UInt64.ofNat n := by
      rw [← UInt64.toNat_inj, UInt64.toNat_ofNat', h]
    rw [heq, UInt64.toInt64_ofNat', Int64.ofInt_eq_ofNat]
  unfold signed Double.withSign
  cases negative with
  | false => exact hbits
  | true => rw [if_pos rfl, if_pos rfl, hbits, Int64.ofInt_neg]

theorem readHexadecimal_int_iff {negative : Bool} {s : List Char} {i : Int64} :
    readHexadecimal negative s = some (.int i) ↔
      s ≠ [] ∧ (∀ c ∈ s, isHexDigit c = true) ∧
        Int64.ofInt (Double.withSign negative (valueIn 16 s)) = i := by
  unfold readHexadecimal
  rw [signed_eq negative (toNat_hexadecimalBits s), ← List.all_eq_true]
  split
  next hall =>
    cases s with
    | nil => simp
    | cons c s => simp [hall]
  next hall => simp [hall]

/-! ## Decimal digits -/

theorem takeDigits_eq {bound : UInt64} {s : List Char} (hbound : 9 ≤ bound.toNat)
    (hdigits : ∀ c ∈ s, c.isDigit = true) :
    ∀ bits : UInt64, bits.toNat ≤ bound.toNat →
      takeDigits bound bits s =
        if bits.toNat * 10 ^ s.length + valueIn 10 s ≤ bound.toNat then
          some (UInt64.ofNat (bits.toNat * 10 ^ s.length + valueIn 10 s), [])
        else none := by
  induction s with
  | nil =>
    intro bits hbits
    simp [takeDigits, valueIn, hbits]
  | cons c s ih =>
    intro bits hbits
    have hc := hdigits c List.mem_cons_self
    have hlt := digitValue_lt_ten hc
    have hmax := bound.toNat_lt
    have hdigit : (digitValue c).toUInt64.toNat = digitValue c :=
      (UInt64.toNat_ofNat').trans (Nat.mod_eq_of_lt (by omega))
    have hten : (10 : UInt64).toNat = 10 := rfl
    have hdifference : (bound - (digitValue c).toUInt64).toNat = bound.toNat - digitValue c := by
      rw [UInt64.toNat_sub_of_le, hdigit]
      rw [UInt64.le_iff_toNat_le, hdigit]
      omega
    have hsum : bits.toNat * 10 ^ (c :: s).length + valueIn 10 (c :: s) =
        (bits.toNat * 10 + digitValue c) * 10 ^ s.length + valueIn 10 s := by
      rw [valueIn_cons, List.length_cons, Nat.pow_succ, Nat.add_mul, Nat.mul_assoc,
        Nat.mul_comm 10, Nat.add_assoc]
    rw [takeDigits, if_pos hc, hsum]
    dsimp only
    by_cases hover : (bound - (digitValue c).toUInt64) / 10 < bits
    · -- this digit is one too many, and those that follow make the value no smaller
      have hover' := hover
      rw [UInt64.lt_iff_toNat_lt, UInt64.toNat_div, hdifference, hten] at hover'
      have hgrow := Nat.le_mul_of_pos_right (bits.toNat * 10 + digitValue c)
        (Nat.pow_pos (show 0 < 10 by decide) (n := s.length))
      rw [if_pos hover, if_neg (by omega)]
    · have hfits := hover
      rw [UInt64.lt_iff_toNat_lt, UInt64.toNat_div, hdifference, hten] at hfits
      have hnext : (bits * 10 + (digitValue c).toUInt64).toNat = bits.toNat * 10 + digitValue c := by
        rw [UInt64.toNat_add, UInt64.toNat_mul, hdigit, hten]
        omega
      rw [if_neg hover, ih (fun c' hc' => hdigits c' (List.mem_cons_of_mem c hc')) _ (by omega), hnext]

/-- What follows the digits is left. -/
theorem takeDigits_rest {bound bits bits' : UInt64} {s rest : List Char}
    (h : takeDigits bound bits s = some (bits', rest)) : rest = s.dropWhile Char.isDigit := by
  induction s generalizing bits with
  | nil =>
    cases h
    rfl
  | cons c s ih =>
    rw [takeDigits] at h
    split at h
    next hc =>
      dsimp only at h
      split at h
      next => cases h
      next => rw [ih h, List.dropWhile_cons_of_pos hc]
    next hc =>
      cases h
      rw [List.dropWhile_cons_of_neg hc]

theorem toNat_limit (negative : Bool) :
    (limit negative).toNat = 2 ^ 63 - 1 + if negative then 1 else 0 := by
  cases negative <;> rfl

/-- The bound for the digits is the range of the integers, for either sign. -/
theorem le_limit_iff {negative : Bool} {n : Nat} :
    n ≤ (limit negative).toNat ↔
      -2 ^ 63 ≤ Double.withSign negative n ∧ Double.withSign negative n < 2 ^ 63 := by
  rw [toNat_limit]
  cases negative <;> simp only [Double.withSign, if_pos, Bool.false_eq_true, if_false] <;> omega

theorem readDecimalFloat_ne_int {negative : Bool} {s : List Char} {i : Int64} :
    readDecimalFloat negative s ≠ some (.int i) := by
  simp [readDecimalFloat]

theorem not_marksFloat_of_isDigit {c : Char} (h : c.isDigit = true) : marksFloat c = false := by
  apply Bool.eq_false_iff.mpr
  intro hmark
  simp only [marksFloat, Bool.or_eq_true, decide_eq_true_iff] at hmark
  rcases hmark with (((rfl | rfl) | rfl) | rfl) | rfl <;> cases h

/-- Digits alone are an integer if their value is in range, and else a float. -/
theorem readDecimal_digits (negative : Bool) {s : List Char} (hdigits : ∀ c ∈ s, c.isDigit = true) :
    readDecimal negative s =
      if valueIn 10 s ≤ (limit negative).toNat then
        some (.int (Int64.ofInt (Double.withSign negative (valueIn 10 s))))
      else readDecimalFloat negative s := by
  have hmarks : s.any marksFloat = false := by
    rw [List.any_eq_false]
    intro c hc
    rw [not_marksFloat_of_isDigit (hdigits c hc)]
    exact Bool.false_ne_true
  have hlimit : 9 ≤ (limit negative).toNat := by
    rw [toNat_limit]
    omega
  have htake := takeDigits_eq hlimit hdigits 0 (Nat.zero_le _)
  rw [show (0 : UInt64).toNat = 0 from rfl, Nat.zero_mul, Nat.zero_add] at htake
  rw [readDecimal, hmarks, if_neg Bool.false_ne_true, htake]
  by_cases hle : valueIn 10 s ≤ (limit negative).toNat
  · rw [if_pos hle, if_pos hle]
    dsimp only
    rw [signed_eq negative UInt64.toNat_ofNat']
  · rw [if_neg hle, if_neg hle]

/-- An integer in decimal has no characters other than digits. -/
theorem isDigit_of_readDecimal {negative : Bool} {s : List Char} {i : Int64}
    (h : readDecimal negative s = some (.int i)) : ∀ c ∈ s, c.isDigit = true := by
  unfold readDecimal at h
  split at h
  next => exact absurd h readDecimalFloat_ne_int
  next =>
    split at h
    next hrest => exact List.dropWhile_eq_nil_iff.mp (takeDigits_rest hrest).symm
    next => cases h
    next => exact absurd h readDecimalFloat_ne_int

theorem readDecimal_int_iff {negative : Bool} {s : List Char} {i : Int64} :
    readDecimal negative s = some (.int i) ↔
      (∀ c ∈ s, c.isDigit = true) ∧ i.toInt = Double.withSign negative (valueIn 10 s) := by
  constructor
  · intro h
    have hdigits := isDigit_of_readDecimal h
    rw [readDecimal_digits negative hdigits] at h
    split at h
    next hle =>
      obtain ⟨hlow, hhigh⟩ := le_limit_iff.1 hle
      cases h
      exact ⟨hdigits, Int64.toInt_ofInt_of_le hlow hhigh⟩
    next => exact absurd h readDecimalFloat_ne_int
  · rintro ⟨hdigits, hi⟩
    have hle : valueIn 10 s ≤ (limit negative).toNat :=
      le_limit_iff.2 (hi ▸ ⟨Int64.le_toInt i, Int64.toInt_lt i⟩)
    rw [readDecimal_digits negative hdigits, if_pos hle, ← hi, Int64.ofInt_toInt]

/-! ## Signs and blanks -/

theorem splitSign_append {sign body : List Char} {c : Char} (hc : c ≠ '-' ∧ c ≠ '+')
    (hsign : sign = [] ∨ sign = ['+'] ∨ sign = ['-']) :
    splitSign (sign ++ c :: body) = (decide (sign = ['-']), c :: body) := by
  rcases hsign with rfl | rfl | rfl
  · unfold splitSign
    split
    next heq => exact absurd (List.cons.inj heq).1 hc.1
    next heq => exact absurd (List.cons.inj heq).1 hc.2
    next => rfl
  · rfl
  · rfl

theorem splitSign_eq (s : List Char) :
    ∃ sign body, (sign = [] ∨ sign = ['+'] ∨ sign = ['-']) ∧ s = sign ++ body ∧
      splitSign s = (decide (sign = ['-']), body) := by
  unfold splitSign
  split
  next body => exact ⟨['-'], body, .inr (.inr rfl), rfl, rfl⟩
  next body => exact ⟨['+'], body, .inr (.inl rfl), rfl, rfl⟩
  next => exact ⟨[], s, .inl rfl, rfl, rfl⟩

/-- Blanks around the text are all that is trimmed. -/
theorem trim_eq (s : List Char) :
    ∃ left right, s = left ++ trim s ++ right ∧ (∀ c ∈ left, isBlank c = true) ∧
      ∀ c ∈ right, isBlank c = true := by
  refine ⟨s.takeWhile isBlank, ((s.dropWhile isBlank).reverse.takeWhile isBlank).reverse, ?_, ?_, ?_⟩
  · rw [trim, List.append_assoc, ← List.reverse_append, List.takeWhile_append_dropWhile,
      List.reverse_reverse, List.takeWhile_append_dropWhile]
  · intro c hc
    exact List.mem_takeWhile_imp hc
  · intro c hc
    exact List.mem_takeWhile_imp (List.mem_reverse.mp hc)

theorem dropWhile_of_not_blank {core rest : List Char} (hne : core ≠ [])
    (hcore : ∀ c ∈ core, isBlank c = false) : (core ++ rest).dropWhile isBlank = core ++ rest := by
  cases core with
  | nil => exact absurd rfl hne
  | cons c core =>
    apply List.dropWhile_cons_of_neg
    rw [hcore c List.mem_cons_self]
    exact Bool.false_ne_true

/-- A text without blanks is left when those around it are trimmed. -/
theorem trim_append {left core right : List Char} (hleft : ∀ c ∈ left, isBlank c = true)
    (hright : ∀ c ∈ right, isBlank c = true) (hne : core ≠ [])
    (hcore : ∀ c ∈ core, isBlank c = false) : trim (left ++ core ++ right) = core := by
  have hback : (core.reverse ++ []).dropWhile isBlank = core.reverse ++ [] :=
    dropWhile_of_not_blank (List.reverse_ne_nil_iff.mpr hne) fun c hc =>
      hcore c (List.mem_reverse.mp hc)
  rw [List.append_nil] at hback
  rw [trim, List.append_assoc, List.dropWhile_append_of_pos hleft, dropWhile_of_not_blank hne hcore,
    List.reverse_append, List.dropWhile_append_of_pos fun c hc => hright c (List.mem_reverse.mp hc),
    hback, List.reverse_reverse]

/-! ## Reading and writing -/

theorem isBlank_of_isHexDigit {c : Char} (h : isHexDigit c = true) : isBlank c = false := by
  apply Bool.eq_false_iff.mpr
  intro hblank
  simp only [isBlank, Bool.or_eq_true, decide_eq_true_iff] at hblank
  rcases hblank with ((((rfl | rfl) | rfl) | rfl) | rfl) | rfl <;> cases h

theorem isHexDigit_of_isDigit {c : Char} (h : c.isDigit = true) : isHexDigit c = true := by
  simp [isHexDigit, h]

theorem not_blank_append {sign body : List Char} (hsign : sign = [] ∨ sign = ['+'] ∨ sign = ['-'])
    (hbody : ∀ c ∈ body, isBlank c = false) : ∀ c ∈ sign ++ body, isBlank c = false := by
  intro c hc
  rcases List.mem_append.mp hc with hc | hc
  · rcases hsign with rfl | rfl | rfl
    · cases hc
    · rw [List.mem_singleton.mp hc]
      rfl
    · rw [List.mem_singleton.mp hc]
      rfl
  · exact hbody c hc

theorem IsInteger.ne_nil {core : List Char} {i : Int64} (h : IsInteger core i) : core ≠ [] := by
  cases h with
  | hexadecimal sign mark digits => simp
  | decimal sign digits i hsign hne => simp [hne]

theorem IsInteger.not_blank {core : List Char} {i : Int64} (h : IsInteger core i) :
    ∀ c ∈ core, isBlank c = false := by
  cases h with
  | hexadecimal sign mark digits hmark hsign hne hdigits =>
    apply not_blank_append hsign
    intro c hc
    rcases List.mem_cons.mp hc with rfl | hc
    · rfl
    · rcases List.mem_cons.mp hc with rfl | hc
      · rcases hmark with rfl | rfl <;> rfl
      · exact isBlank_of_isHexDigit (hdigits c hc)
  | decimal sign digits i hsign hne hdigits =>
    apply not_blank_append hsign
    intro c hc
    exact isBlank_of_isHexDigit (isHexDigit_of_isDigit (hdigits c hc))

/-- Digits do not begin like a hexadecimal numeral. -/
theorem readUnsigned_digits {negative : Bool} {digits : List Char} (hne : digits ≠ [])
    (hdigits : ∀ c ∈ digits, c.isDigit = true) :
    readUnsigned negative digits = readDecimal negative digits := by
  have hmark : ∀ {c : Char}, c.isDigit = false → c ∉ digits := by
    intro c hc hmem
    rw [hdigits c hmem] at hc
    cases hc
  unfold readUnsigned
  split
  next => exact absurd rfl hne
  next => exact absurd (by simp) (hmark (c := 'x') rfl)
  next => exact absurd (by simp) (hmark (c := 'X') rfl)
  next c r _ _ => rw [hdigits c List.mem_cons_self, Bool.true_or, if_pos rfl]

/-- A sign and decimal digits are read as such. -/
theorem read_digits {text sign digits : List Char} (htrim : trim text = sign ++ digits)
    (hsign : sign = [] ∨ sign = ['+'] ∨ sign = ['-']) (hne : digits ≠ [])
    (hdigits : ∀ c ∈ digits, c.isDigit = true) :
    read text = readDecimal (sign = ['-']) digits := by
  obtain ⟨c, r, rfl⟩ := List.exists_cons_of_ne_nil hne
  have hc := hdigits c List.mem_cons_self
  have hsigns : c ≠ '-' ∧ c ≠ '+' := by
    constructor <;> rintro rfl <;> cases hc
  rw [read, htrim, splitSign_append hsigns hsign]
  exact readUnsigned_digits hne hdigits

theorem IsInteger.of_read {text : List Char} {i : Int64} (h : read text = some (.int i)) :
    IsInteger (trim text) i := by
  obtain ⟨sign, body, hsign, hcore, hsplit⟩ := splitSign_eq (trim text)
  rw [read, hsplit] at h
  rw [hcore]
  dsimp only at h
  unfold readUnsigned at h
  split at h
  next => cases h
  next r =>
    obtain ⟨hne, hdigits, rfl⟩ := readHexadecimal_int_iff.mp h
    exact .hexadecimal sign 'x' r (.inl rfl) hsign hne hdigits
  next r =>
    obtain ⟨hne, hdigits, rfl⟩ := readHexadecimal_int_iff.mp h
    exact .hexadecimal sign 'X' r (.inr rfl) hsign hne hdigits
  next c r _ _ =>
    split at h
    next =>
      obtain ⟨hdigits, hi⟩ := readDecimal_int_iff.mp h
      exact .decimal sign (c :: r) i hsign (List.cons_ne_nil c r) hdigits hi
    next => cases h

theorem IsInteger.read {text core : List Char} {i : Int64} (htrim : trim text = core)
    (h : IsInteger core i) : Numeral.read text = some (.int i) := by
  cases h with
  | hexadecimal sign mark digits hmark hsign hne hdigits =>
    rw [Numeral.read, htrim, splitSign_append (by decide) hsign]
    rcases hmark with rfl | rfl
    · exact readHexadecimal_int_iff.mpr ⟨hne, hdigits, rfl⟩
    · exact readHexadecimal_int_iff.mpr ⟨hne, hdigits, rfl⟩
  | decimal sign digits i hsign hne hdigits hvalue =>
    rw [read_digits htrim hsign hne hdigits]
    exact readDecimal_int_iff.mpr ⟨hdigits, hvalue⟩

theorem valueIn_writeNat (n : Nat) : valueIn 10 (writeNat n) = n := by
  have hdigits : ∀ c ∈ writeNat n, c.isDigit = true := fun c hc =>
    Nat.isDigit_of_mem_toDigits (by decide) (by decide) hc
  have hfold : ∀ (digits : List Char) (m : Nat), (∀ c ∈ digits, c.isDigit = true) →
      digits.foldl (fun n c => n * 10 + digitValue c) m = Nat.ofDigitChars 10 digits m := by
    intro digits
    induction digits with
    | nil => exact fun _ _ => rfl
    | cons c digits ih =>
      intro m h
      have hc := h c List.mem_cons_self
      rw [List.foldl_cons, Nat.ofDigitChars_cons, ih _ fun c' hc' => h c' (List.mem_cons_of_mem c hc'),
        digitValue, if_pos hc, Nat.mul_comm 10]
  rw [valueIn, hfold _ _ hdigits]
  exact Nat.ofDigitChars_ten_toDigits

/-- An integer is written as a numeral of itself. -/
theorem isInteger_writeInt (i : Int64) : IsInteger (writeInt i.toInt) i := by
  have hdigits : ∀ c ∈ writeNat i.toInt.natAbs, c.isDigit = true := fun c hc =>
    Nat.isDigit_of_mem_toDigits (by decide) (by decide) hc
  have hne : writeNat i.toInt.natAbs ≠ [] := Nat.toDigits_ne_nil
  unfold writeInt
  split
  next hneg =>
    apply IsInteger.decimal ['-'] _ i (.inr (.inr rfl)) hne hdigits
    rw [valueIn_writeNat, Double.withSign, decide_eq_true rfl, if_pos rfl]
    omega
  next hneg =>
    apply IsInteger.decimal [] _ i (.inl rfl) hne hdigits
    rw [valueIn_writeNat]
    exact (Int.natAbs_of_nonneg (Int.not_lt.mp hneg)).symm

/-- What reads as an integer. -/
structure IntegerReading : Prop where
  /-- the numerals of an integer with blanks around them, and nothing else -/
  iff : ∀ (text : List Char) (i : Int64), read text = some (.int i) ↔
    ∃ left core right, text = left ++ core ++ right ∧ (∀ c ∈ left, isBlank c = true) ∧
      (∀ c ∈ right, isBlank c = true) ∧ IsInteger core i
  /-- decimal digits whose value is out of range -/
  outOfRange : ∀ (left sign digits right : List Char) (i : Int64), (∀ c ∈ left, isBlank c = true) →
    (∀ c ∈ right, isBlank c = true) → (sign = [] ∨ sign = ['+'] ∨ sign = ['-']) →
    (∀ c ∈ digits, c.isDigit = true) →
    ¬ (-2 ^ 63 ≤ Double.withSign (sign = ['-']) (valueIn 10 digits) ∧
      Double.withSign (sign = ['-']) (valueIn 10 digits) < 2 ^ 63) →
    read (left ++ (sign ++ digits) ++ right) ≠ some (.int i)
  /-- an integer reads back from the text that it is written as -/
  written : ∀ (i : Int64) (left right : List Char), (∀ c ∈ left, isBlank c = true) →
    (∀ c ∈ right, isBlank c = true) →
    read (left ++ write (.int i) ++ right) = some (.int i)

theorem read_integer : IntegerReading where
  iff text i := by
    constructor
    · intro h
      obtain ⟨left, right, htext, hleft, hright⟩ := trim_eq text
      exact ⟨left, trim text, right, htext, hleft, hright, .of_read h⟩
    · rintro ⟨left, core, right, rfl, hleft, hright, hcore⟩
      exact hcore.read (trim_append hleft hright hcore.ne_nil hcore.not_blank)
  outOfRange left sign digits right i hleft hright hsign hdigits hrange h := by
    by_cases hne : digits = []
    · -- no digits have the value zero
      subst hne
      apply hrange
      cases decide (sign = ['-']) <;> decide
    · have hblank : ∀ c ∈ sign ++ digits, isBlank c = false := not_blank_append hsign fun c hc =>
        isBlank_of_isHexDigit (isHexDigit_of_isDigit (hdigits c hc))
      have htrim := trim_append hleft hright (List.append_ne_nil_of_right_ne_nil sign hne) hblank
      rw [read_digits htrim hsign hne hdigits] at h
      obtain ⟨-, hi⟩ := readDecimal_int_iff.mp h
      exact hrange (hi ▸ ⟨Int64.le_toInt i, Int64.toInt_lt i⟩)
  written i left right hleft hright := by
    have hcore := isInteger_writeInt i
    exact hcore.read (trim_append hleft hright hcore.ne_nil hcore.not_blank)

end Numeral
end LuaMachine
