import LuaMachine.Token.Lexer
import LuaMachine.Proofs.Number.Numerals
import Mathlib.Data.List.Infix
/-! # Escapes for code points

The value of the digits in braces is kept to 32 bits and looked at after each digit. It is found too
large if it needs no more than 32 bits; of a larger one the upper bits are lost, and it can pass. The
bytes of a code point are its encoding as long as it has no more than 21 bits.

* `Lexer.InRange`: the digits that pass.
* `Lexer.unicodeEscape_eq`, `Lexer.inRange_iff_of_lt`: what an escape for a code point stands for.
* `Lexer.decode`: the code point of an encoding, of up to six bytes.
* `Lexer.decode_codePointBytes`: the code points whose bytes are an encoding of them.
-/
set_option autoImplicit false

namespace LuaMachine
namespace Lexer

open Numeral

/-! ## Range -/

/-- The last 32 bits of the value are in range. -/
def Passes (digits : List Char) : Prop := valueIn 16 digits % 2 ^ 32 < 2 ^ 31

instance (digits : List Char) : Decidable (Passes digits) :=
  inferInstanceAs (Decidable (valueIn 16 digits % 2 ^ 32 < 2 ^ 31))

/-- The digits pass after each of them. -/
def InRange (digits : List Char) : Prop := ∀ start ∈ digits.inits, Passes start

instance (digits : List Char) : Decidable (InRange digits) :=
  inferInstanceAs (Decidable (∀ start ∈ digits.inits, Passes start))

theorem valueIn_append (base : Nat) (first second : List Char) :
    valueIn base (first ++ second) = valueIn base first * base ^ second.length + valueIn base second := by
  rw [valueIn, List.foldl_append, foldl_eq_valueIn, ← valueIn]

theorem codePoint?_eq (digits : List Char) {before : List Char} (hbefore : Passes before) :
    codePoint? digits (valueIn 16 before % 2 ^ 32) =
      if ∀ start ∈ digits.inits, Passes (before ++ start) then
        some (valueIn 16 (before ++ digits) % 2 ^ 32)
      else none := by
  induction digits generalizing before with
  | nil => simp [codePoint?, hbefore]
  | cons c digits ih =>
    have hnext : (valueIn 16 before % 2 ^ 32 * 16 + digitValue c) % 0x100000000 =
        valueIn 16 (before ++ [c]) % 2 ^ 32 := by
      have hdigit : valueIn 16 [c] = digitValue c := Nat.zero_add _
      rw [valueIn_append, hdigit, List.length_singleton]
      omega
    have hstarts : (∀ start ∈ (c :: digits).inits, Passes (before ++ start)) ↔
        ∀ start ∈ digits.inits, Passes (before ++ [c] ++ start) := by
      simp [hbefore]
    unfold codePoint?
    dsimp only
    rw [hnext]
    by_cases hpass : Passes (before ++ [c])
    · have hfits : ¬ 0x7FFFFFFF < valueIn 16 (before ++ [c]) % 2 ^ 32 :=
        Nat.not_lt.mpr (Nat.le_of_lt_succ hpass)
      rw [if_neg hfits, ih hpass, List.append_assoc before [c] digits]
      simp only [hstarts]
      rfl
    · have hlarge : 0x7FFFFFFF < valueIn 16 (before ++ [c]) % 2 ^ 32 := Nat.not_lt.mp hpass
      rw [if_pos hlarge, if_neg fun h => hpass ?_]
      have hfirst := hstarts.mp h [] (by simp)
      rwa [List.append_nil] at hfirst

/-- Digits in braces stand for the last 32 bits of their value, if they are in range. -/
theorem unicodeEscape_eq {digits : List Char} (hne : digits ≠ [])
    (hdigits : ∀ c ∈ digits, isHexDigit c = true) (rest : List Char) (line : Nat) :
    unicodeEscape ('\x7b' :: (digits ++ '\x7d' :: rest)) line =
      if InRange digits then .ok ⟨codePointBytes (valueIn 16 digits % 2 ^ 32), rest, line⟩
      else .error .codePointTooLarge := by
  have htake : (digits ++ '\x7d' :: rest).takeWhile isHexDigit = digits := by
    rw [List.takeWhile_append_of_pos hdigits, List.takeWhile_cons_of_neg (by decide), List.append_nil]
  have hdrop : (digits ++ '\x7d' :: rest).dropWhile isHexDigit = '\x7d' :: rest := by
    rw [List.dropWhile_append_of_pos hdigits, List.dropWhile_cons_of_neg (by decide)]
  have hpoint : codePoint? digits 0 =
      if InRange digits then some (valueIn 16 digits % 2 ^ 32) else none :=
    codePoint?_eq digits (show Passes [] by decide)
  unfold unicodeEscape
  simp only [htake, hdrop, hpoint]
  by_cases h : InRange digits
  · simp [h, hne]
  · simp [h]

theorem valueIn_le_of_mem_inits {digits start : List Char} (h : start ∈ digits.inits) :
    valueIn 16 start ≤ valueIn 16 digits := by
  obtain ⟨rest, rfl⟩ := (List.mem_inits start digits).mp h
  rw [valueIn_append]
  exact Nat.le_trans (Nat.le_mul_of_pos_right _ (Nat.pow_pos (by decide))) (Nat.le_add_right _ _)

/-- A value of no more than 31 bits is in range, however many digits it has. -/
theorem inRange_of_lt {digits : List Char} (h : valueIn 16 digits < 2 ^ 31) : InRange digits :=
  fun _ hstart => Nat.lt_of_le_of_lt
    (Nat.le_trans (Nat.mod_le _ _) (valueIn_le_of_mem_inits hstart)) h

/-- No value of 32 bits passes. -/
theorem inRange_iff_of_lt {digits : List Char} (h : valueIn 16 digits < 2 ^ 32) :
    InRange digits ↔ valueIn 16 digits < 2 ^ 31 := by
  refine ⟨fun hrange => ?_, inRange_of_lt⟩
  have hwhole := hrange digits ((List.mem_inits digits digits).mpr (List.prefix_refl digits))
  rwa [Passes, Nat.mod_eq_of_lt h] at hwhole

/-- Nine digits that pass, and stand for the code point zero. -/
example : valueIn 16 "100000000".toList = 2 ^ 32 ∧ InRange "100000000".toList := by decide

/-! ## Encoding -/

/-- The number of bytes behind the first one of an encoding, and the bits in the first. -/
def lead? (b : Nat) : Option (Nat × Nat) :=
  if b < 0x80 then some (0, b)
  else if b < 0xC0 then none
  else if b < 0xE0 then some (1, b - 0xC0)
  else if b < 0xF0 then some (2, b - 0xE0)
  else if b < 0xF8 then some (3, b - 0xF0)
  else if b < 0xFC then some (4, b - 0xF8)
  else if b < 0xFE then some (5, b - 0xFC)
  else none

def isTail (b : Char) : Bool := 0x80 ≤ b.toNat && b.toNat < 0xC0

/-- The code point of an encoding; each byte behind the first has six bits of it. -/
def decode : List Char → Option Nat
  | [] => none
  | c :: r =>
    match lead? c.toNat with
    | some (n, bits) =>
      if r.length = n && r.all isTail then
        some (r.foldl (fun code b => code * 64 + (b.toNat - 0x80)) bits)
      else none
    | none => none

theorem toNat_byteChar (n : Nat) : (byteChar n).toNat = n % 256 := by
  have hvalid : (n % 256).isValidChar := .inl (by omega)
  rw [byteChar, Char.ofNat, dif_pos hvalid]
  rfl

theorem or_of_lt {i b : Nat} (a : Nat) (h : b < 2 ^ i) : 2 ^ i * a ||| b = 2 ^ i * a + b :=
  (Nat.two_pow_add_eq_or_of_lt h a).symm

/-- A byte behind the first has six bits of the code point. -/
theorem toNat_tail (code shift : Nat) :
    (byteChar (0x80 ||| ((code >>> shift) &&& 0x3F))).toNat = 0x80 + code / 2 ^ shift % 64 := by
  have hbits : code >>> shift &&& 0x3F = code / 2 ^ shift % 64 := by
    rw [Nat.shiftRight_eq_div_pow]
    exact Nat.and_two_pow_sub_one_eq_mod _ 6
  have hor : 0x80 ||| code / 2 ^ shift % 64 = 0x80 + code / 2 ^ shift % 64 :=
    or_of_lt (i := 6) 2 (Nat.mod_lt _ (by decide))
  rw [toNat_byteChar, hbits, hor]
  omega

/-- The first byte has the highest bits, if these are few enough. -/
theorem toNat_lead {code shift i : Nat} (a : Nat) (hcode : code < 2 ^ (i + shift)) (ha : 2 ^ i * (a + 1) ≤ 256) :
    (byteChar (2 ^ i * a ||| code >>> shift)).toNat = 2 ^ i * a + code / 2 ^ shift := by
  have hbits : code / 2 ^ shift < 2 ^ i := by
    rw [Nat.div_lt_iff_lt_mul (Nat.two_pow_pos shift), ← Nat.pow_add]
    exact hcode
  rw [toNat_byteChar, Nat.shiftRight_eq_div_pow, or_of_lt a hbits, Nat.mod_eq_of_lt]
  rw [Nat.mul_succ] at ha
  omega

theorem decode_cons {c : Char} {r : List Char} {bits : Nat} (hlead : lead? c.toNat = some (r.length, bits))
    (htail : r.all isTail = true) :
    decode (c :: r) = some (r.foldl (fun code b => code * 64 + (b.toNat - 0x80)) bits) := by
  rw [decode, hlead]
  exact if_pos (by rw [decide_eq_true rfl, htail]; rfl)

/-- Four bytes have no more than 21 bits. -/
theorem decode_four_lt {a b c d : Char} {code : Nat} (ha : 0xF0 ≤ a.toNat)
    (h : decode [a, b, c, d] = some code) : code < 0x200000 := by
  rw [decode] at h
  split at h
  next n bits hlead =>
    split at h
    next hbytes =>
      simp only [Bool.and_eq_true, decide_eq_true_iff, List.all_cons, List.all_nil, isTail] at hbytes
      obtain ⟨hn, hb, hc, hd, -⟩ := hbytes
      have hbits : bits < 8 := by
        unfold lead? at hlead
        split_ifs at hlead <;> cases hlead <;> simp at hn
        omega
      have hcode := Option.some.inj h
      simp only [List.foldl_cons, List.foldl_nil] at hcode
      omega
    next => cases h
  next => cases h

/-- A code point is read back from its bytes just if it has no more than 21 bits. -/
theorem decode_codePointBytes (code : Nat) : decode (codePointBytes code) = some code ↔ code < 0x200000 := by
  have htail : ∀ shift, isTail (byteChar (0x80 ||| ((code >>> shift) &&& 0x3F))) = true := by
    intro shift
    rw [isTail, toNat_tail, Bool.and_eq_true, decide_eq_true_iff, decide_eq_true_iff]
    omega
  unfold codePointBytes
  dsimp only
  split
  next hone =>
    have hbyte : (byteChar code).toNat = code := by
      rw [toNat_byteChar]
      omega
    have hlead : lead? (byteChar code).toNat = some (0, code) := by
      rw [hbyte, lead?, if_pos hone]
    rw [decode_cons hlead (by simp)]
    simp only [List.foldl_nil, true_iff]
    omega
  split
  next htwo =>
    have hfirst : (byteChar (0xC0 ||| code >>> 6)).toNat = 0xC0 + code / 2 ^ 6 :=
      toNat_lead (i := 5) 6 htwo (by decide)
    have hlead : lead? (byteChar (0xC0 ||| code >>> 6)).toNat = some (1, code / 2 ^ 6) := by
      rw [hfirst, lead?, if_neg (by omega), if_neg (by omega), if_pos (by omega), Nat.add_sub_cancel_left]
    rw [decode_cons hlead (by simp only [List.all_cons, List.all_nil, htail, Bool.and_self])]
    simp only [List.foldl_cons, List.foldl_nil, toNat_tail, Option.some.injEq]
    omega
  split
  next hthree =>
    have hfirst : (byteChar (0xE0 ||| code >>> 12)).toNat = 0xE0 + code / 2 ^ 12 :=
      toNat_lead (i := 4) 14 hthree (by decide)
    have hlead : lead? (byteChar (0xE0 ||| code >>> 12)).toNat = some (2, code / 2 ^ 12) := by
      rw [hfirst, lead?, if_neg (by omega), if_neg (by omega), if_neg (by omega), if_pos (by omega),
        Nat.add_sub_cancel_left]
    rw [decode_cons hlead (by simp only [List.all_cons, List.all_nil, htail, Bool.and_self])]
    simp only [List.foldl_cons, List.foldl_nil, toNat_tail, Option.some.injEq]
    omega
  next =>
    constructor
    · refine decode_four_lt ?_
      rw [toNat_byteChar]
      exact Nat.le_trans Nat.left_le_or (Nat.le_of_eq (Nat.or_mod_two_pow (a := 0xF0) (n := 8)).symm)
    · intro hfour
      have hfirst : (byteChar (0xF0 ||| code >>> 18)).toNat = 0xF0 + code / 2 ^ 18 :=
        toNat_lead (i := 3) 30 hfour (by decide)
      have hlead : lead? (byteChar (0xF0 ||| code >>> 18)).toNat = some (3, code / 2 ^ 18) := by
        rw [hfirst, lead?, if_neg (by omega), if_neg (by omega), if_neg (by omega), if_neg (by omega),
          if_pos (by omega), Nat.add_sub_cancel_left]
      rw [decode_cons hlead (by simp only [List.all_cons, List.all_nil, htail, Bool.and_self])]
      simp only [List.foldl_cons, List.foldl_nil, toNat_tail, Option.some.injEq]
      omega

/-- Two code points of no more than 21 bits have different bytes. -/
theorem codePointBytes_injective {code code' : Nat} (h : code < 0x200000) (h' : code' < 0x200000)
    (heq : codePointBytes code = codePointBytes code') : code = code' := by
  have hread := (decode_codePointBytes code).mpr h
  rw [heq, (decode_codePointBytes code').mpr h'] at hread
  exact (Option.some.inj hread).symm

/-- A code point of 27 bits that has the bytes of a smaller one. -/
example : codePointBytes 0x4040000 = codePointBytes 0x40000 := by decide

end Lexer
end LuaMachine
