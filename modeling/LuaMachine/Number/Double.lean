/-! # Doubles

A double is its 64 bits, so that zeros of either sign and the many NaNs stay apart. Every finite
double is a whole number of units, one unit being `2 ^ -1074`. A double is decoded from its bits
into a sign, a mantissa and a power of two of units, and everything below (comparison, floor, sum,
remainder, conversion to and from whole numbers) is computed on that exact reading; only `*`, `/`
and powers of numbers are left to the machine's own arithmetic.

* `Double.decode`, `Double.units?`: the exact reading.
* `Double.ofQuarters`, `Double.ofRatio`, `Double.ofInt`: the nearest double, ties to even.
* `Double.lt`, `Double.le`, `Double.eq`: comparison through `Double.key`.
* `Double.quiet`, `Double.invalid`, `Double.dominant`: which NaN an operation gives.
* `Double.toInt?`, `Double.floor`, `Double.remainder`: whole numbers and remainders.
* `Double.add`, `Double.sub`: sums and differences, rounded once.
* `Double.mul`, `Double.div`, `Double.power`: the other operations.
-/
set_option autoImplicit false

namespace LuaMachine

structure Double where
  bits : UInt64
deriving DecidableEq, Hashable, Repr, Inhabited

namespace Double

/-! ## Decoding -/

/-- The exact meaning of a double; a finite one is `± mantissa * 2 ^ exponent` units. -/
inductive Reading where
  | notANumber
  | infinite (negative : Bool)
  | finite (negative : Bool) (mantissa exponent : Nat)
deriving DecidableEq, Repr

def isNegative (d : Double) : Bool := d.bits >>> 63 != 0

def magnitudeBits (d : Double) : UInt64 := d.bits &&& 0x7FFFFFFFFFFFFFFF

def exponentField (d : Double) : Nat := ((d.bits >>> 52) &&& 0x7FF).toNat

def fractionField (d : Double) : Nat := (d.bits &&& 0xFFFFFFFFFFFFF).toNat

def isNaN (d : Double) : Bool := magnitudeBits d > 0x7FF0000000000000

def zero : Double := ⟨0⟩

def one : Double := ⟨0x3FF0000000000000⟩

def nan : Double := ⟨0x7FF8000000000000⟩

def neg (d : Double) : Double := ⟨d.bits ^^^ 0x8000000000000000⟩

def decode (d : Double) : Reading :=
  let e := exponentField d
  let f := fractionField d
  if e = 0x7FF then
    if f = 0 then .infinite (isNegative d) else .notANumber
  else if e = 0 then .finite (isNegative d) f 0
  else .finite (isNegative d) (0x10000000000000 + f) (e - 1)

def withSign (negative : Bool) (n : Nat) : Int := if negative then -(n : Int) else n

/-- The value of a finite double in units of `2 ^ -1074`. -/
def units? (d : Double) : Option Int :=
  match decode d with
  | .finite negative m e => some (withSign negative (m <<< e))
  | _ => none

/-! ## Nearest double -/

/-- `m / 2 ^ s` rounded to a whole number, a half going to the even neighbour. -/
def halfEven (m s : Nat) : Nat :=
  let q := m >>> s
  let r := m - q <<< s
  let twice := r <<< 1
  let one := 1 <<< s
  if twice < one then q
  else if one < twice then q + 1
  else if q % 2 = 0 then q else q + 1

def infinityBits : Nat := 0x7FF <<< 52

/-- The bits of the double nearest to `m * 2 ^ e` quarters of a unit, sign apart. With `l` the
power of two that leaves 53 bits (but no finer than a unit), the rounded mantissa is added to
`l - 2` in the exponent field, so a carry out of the mantissa moves on to the next power. -/
def bitsOfQuarters (m e : Nat) : Nat :=
  if m = 0 then 0
  else
    let l := max 2 (m.log2 + e - 52)
    let mantissa := if l ≤ e then m <<< (e - l) else halfEven m (l - e)
    min ((l - 2) <<< 52 + mantissa) infinityBits

def ofQuarters (negative : Bool) (m e : Nat) : Double :=
  let bits := (bitsOfQuarters m e).toUInt64
  ⟨if negative then bits ||| 0x8000000000000000 else bits⟩

/-- The double nearest to `num / den`. The quotient is taken to half a unit, and one more bit
says whether anything was left over, which is all that rounding needs to know. -/
def ofRatio (negative : Bool) (num den : Nat) : Double :=
  let scaled := num <<< 1075
  let q := scaled / den
  let rest := if scaled % den = 0 then 0 else 1
  ofQuarters negative (2 * q + rest) 0

def ofInt (i : Int) : Double := ofQuarters (i < 0) i.natAbs 1076

/-! ## Comparison -/

/-- A whole number that orders all doubles that are numbers; both zeros have the key zero. -/
def key (d : Double) : Int64 :=
  let m := (magnitudeBits d).toInt64
  if isNegative d then -m else m

def lt (a b : Double) : Bool := !isNaN a && !isNaN b && key a < key b

def le (a b : Double) : Bool := !isNaN a && !isNaN b && key a ≤ key b

def eq (a b : Double) : Bool := !isNaN a && !isNaN b && key a == key b

/-! ## Which NaN -/

/-- What an operation on numbers gives where it has no result. -/
def invalid : Double := ⟨0xFFF8000000000000⟩

/-- A NaN as operations hand it on: with the bit set that makes it quiet. -/
def quiet (d : Double) : Double := ⟨d.bits ||| 0x8000000000000⟩

/-- The NaN is not quiet yet. -/
def isSignaling (d : Double) : Bool := isNaN d && quiet d != d

/-- Of two NaNs the one with the greater fraction, and of equal fractions the positive one. -/
def dominant (a b : Double) : Double :=
  let x := quiet a
  let y := quiet b
  if magnitudeBits y < magnitudeBits x then x
  else if magnitudeBits x < magnitudeBits y then y
  else if isNegative x then y else x

/-! ## Whole numbers -/

/-- The floor of a finite double, as a whole number. -/
def floorInt (negative : Bool) (m e : Nat) : Int :=
  if 1074 ≤ e then withSign negative (m <<< (e - 1074))
  else
    let s := 1074 - e
    let q := m >>> s
    if negative then
      if q <<< s = m then -(q : Int) else -(q : Int) - 1
    else q

/-- The whole number that a double is, if it is one. -/
def toInt? (d : Double) : Option Int :=
  match decode d with
  | .finite negative m e =>
    if 1074 ≤ e then some (withSign negative (m <<< (e - 1074)))
    else
      let s := 1074 - e
      let q := m >>> s
      if q <<< s = m then some (withSign negative q) else none
  | _ => none

/-- A whole number as a signed 64-bit integer, if it is in their range. -/
def int64? (i : Int) : Option Int64 :=
  if Int64.minValue.toInt ≤ i ∧ i ≤ Int64.maxValue.toInt then some (Int64.ofInt i) else none

/-- The signed 64-bit integer that a double is, if it is one. -/
def toInt64? (d : Double) : Option Int64 := (toInt? d).bind int64?

/-- The greatest whole number that is at most `d`; infinities and zeros stay as they are. -/
def floor (d : Double) : Double :=
  match decode d with
  | .finite negative m e => if (toInt? d).isSome then d else ofInt (floorInt negative m e)
  | .infinite _ => d
  | .notANumber => quiet d

def floorInt? (d : Double) : Option Int :=
  match decode d with
  | .finite negative m e => some (floorInt negative m e)
  | _ => none

def ceilInt? (d : Double) : Option Int :=
  match decode d with
  | .finite negative m e => some (-(floorInt (!negative) m e))
  | _ => none

/-- The remainder of the division that truncates; it has the sign of the dividend. -/
def remainder (a b : Double) : Double :=
  match decode a, decode b with
  | .notANumber, .notANumber => dominant a b
  | .notANumber, _ => quiet a
  | _, .notANumber => quiet b
  | .finite negative m e, .finite _ n f =>
    if n = 0 then invalid
    else
      let low := min e f
      ofQuarters negative ((m <<< (e - low)) % (n <<< (f - low))) (low + 2)
  | .finite _ _ _, .infinite _ => a
  | .infinite _, _ => invalid

/-! ## Sums -/

/-- The nearest double to a sum; a sum of zero is positive unless both operands are negative. Of
operands that are NaN the first is handed on. -/
def add (a b : Double) : Double :=
  match decode a, decode b with
  | .notANumber, _ => quiet a
  | _, .notANumber => quiet b
  | .infinite s, .infinite t => if s = t then a else invalid
  | .infinite _, _ => a
  | _, .infinite _ => b
  | .finite s m e, .finite t n f =>
    let low := min e f
    let sum := withSign s (m <<< (e - low)) + withSign t (n <<< (f - low))
    if sum = 0 then (if s && t then neg zero else zero)
    else ofQuarters (sum < 0) sum.natAbs (low + 2)

def sub (a b : Double) : Double :=
  if isNaN a then quiet a
  else if isNaN b then quiet b
  else add a (neg b)

/-! ## The machine's own arithmetic -/

/-- An operation on numbers; of operands that are NaN the first is handed on. -/
@[inline]
def operation (f : Float → Float → Float) (a b : Double) : Double :=
  if isNaN a then quiet a
  else if isNaN b then quiet b
  else
    let result : Double := ⟨(f (Float.ofBits a.bits) (Float.ofBits b.bits)).toBits⟩
    if isNaN result then invalid else result

def mul (a b : Double) : Double := operation (· * ·) a b

def div (a b : Double) : Double := operation (· / ·) a b

def isOdd (d : Double) : Bool :=
  match toInt? d with
  | some i => i % 2 = 1
  | none => false

/-- A power. With the exponent zero or the base one it is one even if the other is a quiet NaN; a
negative base that is NaN becomes positive if the exponent is odd. -/
def power (a b : Double) : Double :=
  if isNaN a then
    if magnitudeBits b = 0 && !isSignaling a then one
    else if isNegative a && isOdd b then neg (quiet a)
    else quiet a
  else if isNaN b && a = one && !isSignaling b then one
  else operation Float.pow a b

end Double
end LuaMachine
