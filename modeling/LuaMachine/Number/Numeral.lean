import LuaMachine.Number.Double
/-! # Numerals

Reading and writing numbers as text. A numeral is decimal or hexadecimal, with or without a point
and an exponent; a whole numeral that fits in 64 bits is an integer and any other is the nearest
double.

* `Numeral.read`: the number a text stands for, blanks around it allowed.
* `Numeral.writeInt`, `Numeral.writeFloat`: the text of a number.
* `Numeral.readInBase`: whole numerals in a base from 2 to 36.
-/
set_option autoImplicit false

namespace LuaMachine

inductive Number where
  | int (i : Int64)
  | float (d : Double)

namespace Numeral

/-! ## Characters -/

def isBlank (c : Char) : Bool :=
  c = ' ' || c = '\t' || c = '\n' || c = '\r' || c = '\x0c' || c = '\x0b'

def isHexDigit (c : Char) : Bool :=
  c.isDigit || ('a' ≤ c && c ≤ 'f') || ('A' ≤ c && c ≤ 'F')

/-- The value of a digit or of a letter taken as a digit, in either case. -/
def digitValue (c : Char) : Nat :=
  if c.isDigit then c.toNat - '0'.toNat
  else if c.isUpper then c.toNat - 'A'.toNat + 10
  else c.toNat - 'a'.toNat + 10

/-- The value of a string of digits, most significant first. -/
def valueIn (base : Nat) (digits : List Char) : Nat :=
  digits.foldl (fun n c => n * base + digitValue c) 0

def powerOfTen (n : Nat) : Nat := Nat.pow 10 n

def trim (s : List Char) : List Char :=
  ((s.dropWhile isBlank).reverse.dropWhile isBlank).reverse

/-- Splits off a sign; the flag says that it was a minus. -/
def splitSign : List Char → Bool × List Char
  | '-' :: r => (true, r)
  | '+' :: r => (false, r)
  | s => (false, s)

/-- Splits off a minus. -/
def splitMinus : List Char → Bool × List Char
  | '-' :: r => (true, r)
  | s => (false, s)

/-! ## Numerals with a point or an exponent -/

/-- A numeral as read: `digits * base ^ (-places) * scale ^ exponent`. -/
structure Scaled where
  digits : List Char
  places : Nat
  exponent : Int

/-- The whole of `s` as digits, a point with more digits, and an exponent after the letter `mark`.
At least one digit is needed, and at least one in an exponent. -/
def scaled? (isDigit : Char → Bool) (mark : Char → Bool) (s : List Char) : Option Scaled :=
  let whole := s.takeWhile isDigit
  let afterWhole := s.dropWhile isDigit
  let (fraction, rest) :=
    match afterWhole with
    | '.' :: r => (r.takeWhile isDigit, r.dropWhile isDigit)
    | r => ([], r)
  if whole.isEmpty && fraction.isEmpty then none
  else
    match rest with
    | [] => some ⟨whole ++ fraction, fraction.length, 0⟩
    | c :: r =>
      if mark c then
        let (negative, power) := splitSign r
        if power.isEmpty || !power.all Char.isDigit then none
        else some ⟨whole ++ fraction, fraction.length,
          Double.withSign negative (valueIn 10 power)⟩
      else none

/-- The double nearest to a decimal. Values of `10 ^ 309` and more are infinite and values below
`10 ^ (-324)` are zero, so the powers of ten that are computed stay small. -/
def ofDecimal (negative : Bool) (s : Scaled) : Double :=
  let significant := s.digits.dropWhile (· = '0')
  let m := valueIn 10 significant
  let power := s.exponent - s.places
  let size := power + significant.length
  if m = 0 then Double.ofRatio negative 0 1
  else if 310 ≤ size then Double.ofQuarters negative 1 4096
  else if size < -324 then Double.ofRatio negative 0 1
  else Double.ofRatio negative (m * powerOfTen power.toNat) (powerOfTen (-power).toNat)

/-- The double nearest to a hexadecimal numeral, whose exponent counts powers of two. -/
def ofHexadecimal (negative : Bool) (s : Scaled) : Double :=
  let m := valueIn 16 s.digits
  let power := s.exponent - 4 * s.places
  let size := power + m.log2
  if m = 0 then Double.ofRatio negative 0 1
  else if 1024 ≤ size then Double.ofQuarters negative 1 4096
  else if size < -1080 then Double.ofRatio negative 0 1
  else Double.ofRatio negative (m <<< power.toNat) (1 <<< (-power).toNat)

/-! ## Reading -/

/-- The digits of a base as an integer; leading digits that do not fit are lost. -/
def bitsIn (base : UInt64) (digits : List Char) : UInt64 :=
  digits.foldl (fun bits c => bits * base + (digitValue c).toUInt64) 0

def hexadecimalBits (digits : List Char) : UInt64 := bitsIn 16 digits

def signed (negative : Bool) (bits : UInt64) : Int64 :=
  if negative then -bits.toInt64 else bits.toInt64

def readHexadecimal (negative : Bool) (s : List Char) : Option Number :=
  if s.all isHexDigit then
    if s.isEmpty then none else some (.int (signed negative (hexadecimalBits s)))
  else
    (scaled? isHexDigit (fun c => c = 'p' || c = 'P') s).map
      fun r => .float (ofHexadecimal negative r)

/-- The size of the integer that is furthest from zero. -/
def limit (negative : Bool) : UInt64 := 0x7FFFFFFFFFFFFFFF + (if negative then 1 else 0)

/-- The value of the digits that `s` begins with, taken on to `bits`, and what follows them. There
is no value if it would pass the bound. -/
def takeDigits (bound bits : UInt64) : List Char → Option (UInt64 × List Char)
  | [] => some (bits, [])
  | c :: r =>
    if c.isDigit then
      let digit := (digitValue c).toUInt64
      if (bound - digit) / 10 < bits then none else takeDigits bound (bits * 10 + digit) r
    else some (bits, c :: r)

/-- A letter or a point that only a numeral for a float can have. -/
def marksFloat (c : Char) : Bool := c = '.' || c = 'e' || c = 'E' || c = 'n' || c = 'N'

def readDecimalFloat (negative : Bool) (s : List Char) : Option Number :=
  (scaled? Char.isDigit (fun c => c = 'e' || c = 'E') s).map fun r => .float (ofDecimal negative r)

def readDecimal (negative : Bool) (s : List Char) : Option Number :=
  if s.any marksFloat then readDecimalFloat negative s
  else
    match takeDigits (limit negative) 0 s with
    | some (bits, []) => some (.int (signed negative bits))
    | some (_, _ :: _) => none
    | none => readDecimalFloat negative s

def readUnsigned (negative : Bool) : List Char → Option Number
  | [] => none
  | '0' :: 'x' :: r => readHexadecimal negative r
  | '0' :: 'X' :: r => readHexadecimal negative r
  | c :: r => if c.isDigit || c = '.' then readDecimal negative (c :: r) else none

/-- The number that a text stands for, if it is a numeral with blanks around it. -/
def read (text : List Char) : Option Number :=
  let (negative, body) := splitSign (trim text)
  readUnsigned negative body

/-- A whole numeral in a base from 2 to 36: blanks, a minus, digits in either case, blanks. -/
def readInBase (base : Nat) (text : List Char) : Option Int64 :=
  let (negative, body) := splitMinus (text.dropWhile isBlank)
  let digits := body.takeWhile Char.isAlphanum
  let rest := (body.dropWhile Char.isAlphanum).dropWhile isBlank
  if digits.isEmpty || !digits.all (fun c => digitValue c < base) || !rest.isEmpty then none
  else some (signed negative (bitsIn base.toUInt64 digits))

/-! ## Writing -/

def writeNat (n : Nat) : List Char := Nat.toDigits 10 n

def writeInt (i : Int) : List Char :=
  if i < 0 then '-' :: writeNat i.natAbs else writeNat i.natAbs

/-- `num / den` rounded to a whole number, a half going to the even neighbour. -/
def roundRatio (num den : Nat) : Nat :=
  let q := num / den
  let twice := 2 * (num % den)
  if twice < den then q
  else if den < twice then q + 1
  else if q % 2 = 0 then q else q + 1

/-- The decimal exponent of the first digit of the positive value `num / den`. -/
def leadingExponent (num den : Nat) : Int :=
  if den ≤ num then (writeNat (num / den)).length - 1
  else
    let n := (writeNat (den / num)).length
    if num * powerOfTen (n - 1) = den then -((n - 1 : Nat) : Int) else -(n : Int)

/-- A decimal of `places` significant digits, with the exponent of its first digit. -/
def significant (places num den : Nat) : Nat × Int :=
  let x := leadingExponent num den
  let shift := (places : Int) - 1 - x
  let digits := roundRatio (num * powerOfTen shift.toNat) (den * powerOfTen (-shift).toNat)
  if digits = powerOfTen places then (powerOfTen (places - 1), x + 1) else (digits, x)

/-- How a double is written: the count of significant digits, and the least exponent that is
still written positionally; an exponent of `places` or more is written with a power of ten. -/
structure FloatFormat where
  places : Nat
  leastPositional : Int

def floatFormat : FloatFormat := ⟨14, -4⟩

def dropTrailing (c : Char) (s : List Char) : List Char :=
  (s.reverse.dropWhile (· = c)).reverse

def withPoint (whole fraction : List Char) : List Char :=
  if fraction.isEmpty then whole else whole ++ '.' :: fraction

/-- An exponent has a sign and at least two digits. -/
def writeExponent (x : Int) : List Char :=
  let digits := writeNat x.natAbs
  (if x < 0 then '-' else '+') :: (if digits.length < 2 then '0' :: digits else digits)

/-- The positive value `num / den` in the given format; trailing zeros of a fraction are left
out, and so is a point without a fraction. -/
def writeRatio (format : FloatFormat) (num den : Nat) : List Char :=
  let (n, x) := significant format.places num den
  let digits := writeNat n
  if format.leastPositional ≤ x ∧ x < format.places then
    if 0 ≤ x then
      let whole := x.toNat + 1
      withPoint (digits.take whole) (dropTrailing '0' (digits.drop whole))
    else
      withPoint ['0'] (List.replicate ((-x).toNat - 1) '0' ++ dropTrailing '0' digits)
  else
    withPoint (digits.take 1) (dropTrailing '0' (digits.drop 1)) ++ 'e' :: writeExponent x

/-- A text that reads as a whole number gets `.0`, so that it reads back as a float. -/
def markFloat (s : List Char) : List Char :=
  if s.all (fun c => c.isDigit || c = '-') then s ++ ['.', '0'] else s

def writeFloat (d : Double) : List Char :=
  let sign := if Double.isNegative d then ['-'] else []
  match Double.decode d with
  | .notANumber => sign ++ "nan".toList
  | .infinite _ => sign ++ "inf".toList
  | .finite _ m e =>
    let magnitude :=
      if m = 0 then ['0'] else writeRatio floatFormat (m <<< e) (1 <<< 1074)
    markFloat (sign ++ magnitude)

def write : Number → List Char
  | .int i => writeInt i.toInt
  | .float d => writeFloat d

end Numeral
end LuaMachine
