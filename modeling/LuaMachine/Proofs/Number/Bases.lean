import LuaMachine.Machine.Library
import LuaMachine.Proofs.Number.Numerals
import Mathlib.Data.Nat.Digits.Lemmas
/-! # Numerals in a base

With a base, a text reads as an integer just if it is a minus or none and digits below the base, with
blanks around it. The digits are taken one at a time into 64 bits, so that the value wraps.

* `Numeral.InBase`: the numerals of a base with their values.
* `Numeral.writeInBase`: an integer in a base.
* `Numeral.readInBase_iff`: the texts that read as integers in a base.
* `Library.tonumber_inBase`: the same of the library function, which gives nil for any other text.
-/
set_option autoImplicit false

namespace LuaMachine
namespace Numeral

/-- The numerals of a base with their values. -/
inductive InBase (base : Nat) : List Char → Int → Prop where
  | intro (sign digits : List Char) (hsign : sign = [] ∨ sign = ['-']) (hne : digits ≠ [])
    (hdigits : ∀ c ∈ digits, c.isAlphanum = true ∧ digitValue c < base) :
    InBase base (sign ++ digits)
      (Double.withSign (sign = ['-']) (Nat.ofDigits base (digits.reverse.map digitValue)))

/-- A numeral of a base with blanks around it. -/
def BlankedInBase (base : Nat) (text : List Char) (n : Int) : Prop :=
  ∃ left core right, text = left ++ core ++ right ∧ (∀ c ∈ left, isBlank c = true) ∧
    (∀ c ∈ right, isBlank c = true) ∧ InBase base core n

/-- The digit of a value below 36, a letter in either case from ten on. -/
def digitOf (upper : Bool) (value : Nat) : Char :=
  if value < 10 then Char.ofNat ('0'.toNat + value)
  else Char.ofNat ((if upper then 'A' else 'a').toNat + (value - 10))

def writeNatInBase (base : Nat) (upper : Bool) (n : Nat) : List Char :=
  (if n = 0 then [0] else (Nat.digits base n).reverse).map (digitOf upper)

/-- An integer in a base from 2 to 36. -/
def writeInBase (base : Nat) (upper : Bool) (i : Int) : List Char :=
  (if i < 0 then ['-'] else []) ++ writeNatInBase base upper i.natAbs

/-! ## Digits -/

theorem digitOf_lt : ∀ (upper : Bool) (value : Nat), value < 36 →
    (digitOf upper value).isAlphanum = true ∧ digitValue (digitOf upper value) = value := by
  decide

theorem valueIn_eq_ofDigits (base : Nat) (digits : List Char) :
    valueIn base digits = Nat.ofDigits base (digits.reverse.map digitValue) := by
  induction digits with
  | nil => rfl
  | cons c digits ih =>
    rw [valueIn_cons, ih, List.reverse_cons, List.map_append, Nat.ofDigits_append, List.length_map,
      List.length_reverse, List.map_singleton, Nat.ofDigits_singleton, Nat.mul_comm, Nat.add_comm]

theorem not_blank_of_isAlphanum {c : Char} (h : c.isAlphanum = true) : isBlank c = false := by
  apply Bool.eq_false_iff.mpr
  intro hblank
  simp only [isBlank, Bool.or_eq_true, decide_eq_true_iff] at hblank
  rcases hblank with ((((rfl | rfl) | rfl) | rfl) | rfl) | rfl <;> cases h

theorem splitMinus_append {sign digits rest : List Char} (hsign : sign = [] ∨ sign = ['-'])
    (hne : digits ≠ []) (hdigits : ∀ c ∈ digits, c.isAlphanum = true) :
    splitMinus (sign ++ digits ++ rest) = (decide (sign = ['-']), digits ++ rest) := by
  rcases hsign with rfl | rfl
  · obtain ⟨c, digits, rfl⟩ := List.exists_cons_of_ne_nil hne
    unfold splitMinus
    split
    next heq =>
      cases (List.cons.inj heq).1
      cases hdigits '-' List.mem_cons_self
    next => rfl
  · rfl

theorem splitMinus_eq (s : List Char) :
    ∃ sign body, (sign = [] ∨ sign = ['-']) ∧ s = sign ++ body ∧
      splitMinus s = (decide (sign = ['-']), body) := by
  unfold splitMinus
  split
  next body => exact ⟨['-'], body, .inr rfl, rfl, rfl⟩
  next => exact ⟨[], s, .inl rfl, rfl, rfl⟩

/-! ## Reading -/

theorem InBase.readInBase {base : Nat} (hbase : base < 2 ^ 64) {text : List Char} {n : Int}
    (h : BlankedInBase base text n) : Numeral.readInBase base text = some (Int64.ofInt n) := by
  obtain ⟨left, core, right, rfl, hleft, hright, hcore⟩ := h
  obtain ⟨sign, digits, hsign, hne, hdigits⟩ := hcore
  have hword : ∀ c ∈ digits, c.isAlphanum = true := fun c hc => (hdigits c hc).1
  have hblank : ∀ c ∈ sign ++ digits, isBlank c = false :=
    not_blank_append (hsign.imp_right .inr) fun c hc => not_blank_of_isAlphanum (hword c hc)
  have hstart : (left ++ (sign ++ digits) ++ right).dropWhile isBlank = sign ++ digits ++ right := by
    rw [List.append_assoc, List.dropWhile_append_of_pos hleft,
      dropWhile_of_not_blank (List.append_ne_nil_of_right_ne_nil sign hne) hblank]
  -- blanks end the digits
  have hend : right.takeWhile Char.isAlphanum = [] ∧ right.dropWhile Char.isAlphanum = right := by
    cases right with
    | nil => exact ⟨rfl, rfl⟩
    | cons c right =>
      have hc : ¬ c.isAlphanum = true := fun hc => by
        have hblank := hright c List.mem_cons_self
        rw [not_blank_of_isAlphanum hc] at hblank
        cases hblank
      exact ⟨List.takeWhile_cons_of_neg hc, List.dropWhile_cons_of_neg hc⟩
  have htake : (digits ++ right).takeWhile Char.isAlphanum = digits := by
    rw [List.takeWhile_append_of_pos hword, hend.1, List.append_nil]
  have hdrop : ((digits ++ right).dropWhile Char.isAlphanum).dropWhile isBlank = [] := by
    rw [List.dropWhile_append_of_pos hword, hend.2]
    exact List.dropWhile_eq_nil_iff.mpr hright
  have hfit : (digits.all fun c => decide (digitValue c < base)) = true := by
    simp only [List.all_eq_true, decide_eq_true_iff]
    exact fun c hc => (hdigits c hc).2
  have hvalue := toNat_bitsIn base.toUInt64 digits
  have hwidth : base.toUInt64.toNat = base := UInt64.toNat_ofNat_of_lt' hbase
  rw [hwidth] at hvalue
  unfold Numeral.readInBase
  dsimp only
  rw [hstart, splitMinus_append hsign hne hword]
  dsimp only
  rw [htake, hdrop, hfit, if_neg (by simp [hne]), signed_eq _ hvalue, valueIn_eq_ofDigits]

theorem blankedInBase_of_readInBase {base : Nat} {text : List Char} {i : Int64}
    (h : Numeral.readInBase base text = some i) : ∃ n, BlankedInBase base text n := by
  unfold Numeral.readInBase at h
  dsimp only at h
  obtain ⟨sign, body, hsign, hstart, hsplit⟩ := splitMinus_eq (text.dropWhile isBlank)
  rw [hsplit] at h
  dsimp only at h
  split at h
  next => cases h
  next hgood =>
    simp only [Bool.or_eq_true, not_or, Bool.not_eq_true', Bool.not_eq_false, List.isEmpty_iff,
      List.all_eq_true, decide_eq_true_iff] at hgood
    obtain ⟨⟨hne, hdigits⟩, hrest⟩ := hgood
    refine ⟨_, text.takeWhile isBlank, _, body.dropWhile Char.isAlphanum, ?_, fun c => List.mem_takeWhile_imp,
      List.dropWhile_eq_nil_iff.mp hrest,
      .intro sign (body.takeWhile Char.isAlphanum) hsign hne fun c hc =>
        ⟨List.mem_takeWhile_imp hc, hdigits c hc⟩⟩
    rw [List.append_assoc, List.append_assoc, List.takeWhile_append_dropWhile, ← hstart,
      List.takeWhile_append_dropWhile]

/-- The texts that read as integers in a base, with their values taken modulo `2 ^ 64`. -/
theorem readInBase_iff {base : Nat} (hbase : base < 2 ^ 64) {text : List Char} {i : Int64} :
    Numeral.readInBase base text = some i ↔ ∃ n, BlankedInBase base text n ∧ i = Int64.ofInt n := by
  constructor
  · intro h
    obtain ⟨n, hn⟩ := blankedInBase_of_readInBase h
    rw [InBase.readInBase hbase hn] at h
    exact ⟨n, hn, (Option.some.inj h).symm⟩
  · rintro ⟨n, hn, rfl⟩
    exact InBase.readInBase hbase hn

/-! ## Writing -/

theorem inBase_writeNatInBase {base : Nat} (hlow : 2 ≤ base) (hhigh : base ≤ 36) (upper : Bool) (n : Nat)
    {sign : List Char} (hsign : sign = [] ∨ sign = ['-']) :
    InBase base (sign ++ writeNatInBase base upper n) (Double.withSign (sign = ['-']) n) := by
  have hvalues : ∀ v ∈ (if n = 0 then [0] else (Nat.digits base n).reverse), v < base := by
    intro v hv
    split at hv
    next =>
      rw [List.mem_singleton.mp hv]
      omega
    next => exact Nat.digits_lt_base hlow (List.mem_reverse.mp hv)
  have hback : ∀ v ∈ (if n = 0 then [0] else (Nat.digits base n).reverse),
      (digitValue ∘ digitOf upper) v = id v := fun v hv =>
    (digitOf_lt upper v (Nat.lt_of_lt_of_le (hvalues v hv) hhigh)).2
  have hvalue : Nat.ofDigits base ((writeNatInBase base upper n).reverse.map digitValue) = n := by
    rw [writeNatInBase, List.map_reverse, List.map_map, List.map_congr_left hback, List.map_id]
    split
    next hzero => rw [hzero, List.reverse_singleton, Nat.ofDigits_singleton]
    next => rw [List.reverse_reverse, Nat.ofDigits_digits]
  have hne : writeNatInBase base upper n ≠ [] := by
    rw [writeNatInBase, Ne, List.map_eq_nil_iff]
    split
    next => exact List.cons_ne_nil 0 []
    next hzero =>
      rw [List.reverse_eq_nil_iff]
      exact Nat.digits_ne_nil_iff_ne_zero.mpr hzero
  have h : InBase base _ _ := .intro sign _ hsign hne fun c hc => by
    obtain ⟨v, hv, rfl⟩ := List.mem_map.mp hc
    obtain ⟨hword, heq⟩ := digitOf_lt upper v (Nat.lt_of_lt_of_le (hvalues v hv) hhigh)
    rw [heq]
    exact ⟨hword, hvalues v hv⟩
  rwa [hvalue] at h

theorem inBase_writeInBase {base : Nat} (hlow : 2 ≤ base) (hhigh : base ≤ 36) (upper : Bool) (i : Int) :
    InBase base (writeInBase base upper i) i := by
  unfold writeInBase
  split
  next hneg =>
    have h := inBase_writeNatInBase hlow hhigh upper i.natAbs (.inr rfl)
    rwa [Double.withSign, decide_eq_true rfl, if_pos rfl, Int.ofNat_natAbs_of_nonpos (Int.le_of_lt hneg),
      Int.neg_neg] at h
  next hneg =>
    have h := inBase_writeNatInBase hlow hhigh upper i.natAbs (.inl rfl)
    rwa [Double.withSign, decide_eq_false (List.cons_ne_nil _ _).symm, if_neg Bool.false_ne_true,
      Int.natAbs_of_nonneg (Int.not_lt.mp hneg)] at h

end Numeral

namespace Library

open Numeral

/-- What a text reads as in a base. -/
structure ReadingInBase (base : Nat) (read : List Char → Except RuntimeError Value) : Prop where
  /-- an integer, the value of a numeral modulo `2 ^ 64`, for the numerals of the base -/
  integer : ∀ (text : List Char) (i : Int64),
    read text = .ok (.int i) ↔ ∃ n, BlankedInBase base text n ∧ i = Int64.ofInt n
  /-- nil for any other text -/
  other : ∀ text : List Char, (¬ ∃ n, BlankedInBase base text n) → read text = .ok .nil
  /-- an integer for what it is written as -/
  written : ∀ (i : Int64) (upper : Bool) (left right : List Char), (∀ c ∈ left, isBlank c = true) →
    (∀ c ∈ right, isBlank c = true) →
    read (left ++ writeInBase base upper i.toInt ++ right) = .ok (.int i)

/-- A value that is taken as a base from 2 to 36: an integer, or a float that is one. -/
def IsBase (v : Value) (base : Int64) : Prop :=
  (v = .int base ∨ ∃ d, v = .float d ∧ Double.toInt64? d = some base) ∧
    2 ≤ base.toInt ∧ base.toInt ≤ 36

/-- With a base, the library reads the text of its first argument in this base. -/
theorem tonumber_eq {v : Value} {base : Int64} (h : IsBase v base) (s : String) (more : List Value) :
    tonumber (.str s :: v :: more) =
      .ok (match readInBase base.toInt.toNat s.toList with
        | some i => .int i
        | none => .nil) := by
  obtain ⟨hbase, hlow, hhigh⟩ := h
  have hsize : base.toUInt64.toNat = base.toInt.toNat := by
    have hzero : (0 : Int64) ≤ base := Int64.le_iff_toInt_le.mpr (Int.le_trans (by decide) hlow)
    rw [Int64.toNat_toUInt64_of_le hzero, Int64.toNat_toInt]
  have hrange : ¬ (decide (base < 2) || decide (36 < base)) = true := by
    simp only [Bool.or_eq_true, decide_eq_true_iff, Int64.lt_iff_toInt_lt]
    have htwo : (2 : Int64).toInt = 2 := by decide
    have hlast : (36 : Int64).toInt = 36 := by decide
    omega
  have hinteger : Argument.integer .tonumber 1 (.str s :: v :: more) = .ok base := by
    rcases hbase with rfl | ⟨d, rfl, hd⟩
    · rfl
    · unfold Argument.integer
      dsimp only [List.getElem?_cons_succ, List.getElem?_cons_zero]
      rw [hd]
  -- a second argument that is a number is looked at as the base
  have hshape : tonumber (.str s :: v :: more) =
      (Argument.integer .tonumber 1 (.str s :: v :: more)).bind fun base =>
        if base < 2 || 36 < base then .error (Argument.bad .tonumber 1 "base out of range")
        else .ok (match readInBase base.toUInt64.toNat s.toList with
          | some i => .int i
          | none => .nil) := by
    have hjoin : ∀ r : Option Int64,
        (match r with
          | some i => pure (.int i)
          | none => pure .nil : Except RuntimeError Value) =
          .ok (match r with
            | some i => .int i
            | none => .nil) := fun r => by cases r <;> rfl
    simp only [← hjoin]
    rcases hbase with rfl | ⟨d, rfl, -⟩ <;> rfl
  rw [hshape, hinteger, Except.bind, if_neg hrange, hsize]

/-- The texts that the library reads as integers in a base, and the text of each integer. -/
theorem tonumber_inBase (v : Value) (base : Int64) (h : IsBase v base) (more : List Value) :
    ReadingInBase base.toInt.toNat fun text => tonumber (.str (String.ofList text) :: v :: more) := by
  obtain ⟨-, hlow, hhigh⟩ := id h
  have hsize : base.toInt.toNat < 2 ^ 64 := by omega
  constructor
  case integer =>
    intro text i
    rw [tonumber_eq h, String.toList_ofList, ← readInBase_iff hsize]
    cases readInBase base.toInt.toNat text <;> simp
  case other =>
    intro text hnone
    have hread : readInBase base.toInt.toNat text = none := by
      rw [Option.eq_none_iff_forall_ne_some]
      intro i hi
      exact hnone (blankedInBase_of_readInBase hi)
    rw [tonumber_eq h, String.toList_ofList, hread]
  case written =>
    intro i upper left right hleft hright
    have hread := InBase.readInBase hsize
      ⟨left, _, right, rfl, hleft, hright, inBase_writeInBase (by omega) (by omega) upper i.toInt⟩
    rw [tonumber_eq h, String.toList_ofList, hread, Int64.ofInt_toInt]

/-- The least integer, as it is written in base 16, reads back. -/
theorem tonumber_inBase_least :
    IsBase (.int 16) 16 ∧ tonumber [.str "-8000000000000000", .int 16] = .ok (.int Int64.minValue) := by
  have hbase : IsBase (.int 16) 16 := ⟨.inl rfl, by decide, by decide⟩
  have hread := (tonumber_inBase (.int 16) 16 hbase []).written Int64.minValue false [] [] (by simp) (by simp)
  have htext : String.ofList ([] ++ writeInBase (16 : Int64).toInt.toNat false Int64.minValue.toInt ++ []) =
      "-8000000000000000" := by
    decide +kernel
  rw [htext] at hread
  exact ⟨hbase, hread⟩

end Library
end LuaMachine
