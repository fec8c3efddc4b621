import LuaMachine.Number.Numeral
/-! # Values

The values a script computes with. Numbers come in two forms, 64-bit integers and doubles; a text
is a string of bytes, one character from U+0000 to U+00FF for each byte; tables and closures are
references into the heap of one machine; native functions are those of the base library and those
that the embedder supplies.

* `Value`, `Kind`: the values and the kinds that a script can tell apart.
* `Value.rawEq`: equality without conversions, a float being equal to the integer that it is.
* `Key`, `Value.key?`: the keys of a table, each value in its one normal form.
* `Value.hash`: equal values have the same hash.
-/
set_option autoImplicit false

namespace LuaMachine

/-- A place in the heap. -/
abbrev Ref := Nat

/-- The functions of the base library. -/
inductive BaseFunction where
  | print | type | tostring | tonumber | error | pcall | assert | select | next | pairs | ipairs
  | ipairsStep | rawequal | rawget | rawset | rawlen | collectgarbage | load
deriving DecidableEq, Hashable, Repr

/-- A function that is not written in the scripting language. -/
inductive Native where
  | base (function : BaseFunction)
  | host (index : Nat)
deriving DecidableEq, Hashable, Repr

inductive Value where
  | nil
  | bool (b : Bool)
  | int (i : Int64)
  | float (d : Double)
  | str (s : String)
  | table (ref : Ref)
  | closure (ref : Ref)
  | native (function : Native)

instance : Inhabited Value := ⟨.nil⟩

/-! ## Kinds -/

inductive Kind where
  | nil | boolean | number | string | table | function
deriving DecidableEq, Repr

def Kind.name : Kind → String
  | .nil => "nil"
  | .boolean => "boolean"
  | .number => "number"
  | .string => "string"
  | .table => "table"
  | .function => "function"

namespace Value

def ofNumber : Number → Value
  | .int i => .int i
  | .float d => .float d

def kind : Value → Kind
  | .nil => .nil
  | .bool _ => .boolean
  | .int _ => .number
  | .float _ => .number
  | .str _ => .string
  | .table _ => .table
  | .closure _ => .function
  | .native _ => .function

def isNil : Value → Bool
  | .nil => true
  | _ => false

def isNumber : Value → Bool
  | .int _ => true
  | .float _ => true
  | _ => false

/-- Only nil and false count as false in a condition. -/
def isFalsey : Value → Bool
  | .nil => true
  | .bool b => !b
  | _ => false

def isTruthy (v : Value) : Bool := !v.isFalsey

/-- A number as a double. -/
def toFloat? : Value → Option Double
  | .int i => some (Double.ofInt i.toInt)
  | .float d => some d
  | _ => none

/-- A number as an integer, if it is one exactly. -/
def toInt64? : Value → Option Int64
  | .int i => some i
  | .float d => Double.toInt64? d
  | _ => none

/-! ## Equality -/

/-- A float equals an integer when it is exactly that integer, NaN equals nothing, texts are equal
by content, and tables and functions by identity. -/
def rawEq : Value → Value → Bool
  | .nil, .nil => true
  | .bool a, .bool b => a == b
  | .int a, .int b => a == b
  | .float a, .float b => Double.eq a b
  | .int a, .float b => Double.toInt64? b == some a
  | .float a, .int b => Double.toInt64? a == some b
  | .str a, .str b => a == b
  | .table a, .table b => a == b
  | .closure a, .closure b => a == b
  | .native a, .native b => a == b
  | _, _ => false

/-! ## Text -/

/-- A stand-in for an address: it begins like one and differs from reference to reference. -/
def address (n : Nat) : String :=
  "0x" ++ String.ofList (Nat.toDigits 16 (0x550000000000 + 64 * n))

def nativeNumber : Native → Nat
  | .base f => f.ctorIdx
  | .host i => 64 + i

/-- The text of a value, as it is printed. -/
def toText : Value → String
  | .nil => "nil"
  | .bool true => "true"
  | .bool false => "false"
  | .int i => String.ofList (Numeral.writeInt i.toInt)
  | .float d => String.ofList (Numeral.writeFloat d)
  | .str s => s
  | .table r => "table: " ++ address r
  | .closure r => "function: " ++ address r
  | .native f => "function: builtin: " ++ address (nativeNumber f)

end Value

/-! ## Keys -/

/-- A table key in normal form: neither nil nor NaN, and a float only if it is no integer. -/
inductive Key where
  | bool (b : Bool)
  | int (i : Int64)
  | float (bits : UInt64)
  | str (s : String)
  | table (ref : Ref)
  | closure (ref : Ref)
  | native (function : Native)
deriving DecidableEq, Hashable, Repr

def Key.value : Key → Value
  | .bool b => .bool b
  | .int i => .int i
  | .float bits => .float ⟨bits⟩
  | .str s => .str s
  | .table r => .table r
  | .closure r => .closure r
  | .native f => .native f

/-- The normal form of a value as a key; nil and NaN have none. -/
def Value.key? : Value → Option Key
  | .nil => none
  | .bool b => some (.bool b)
  | .int i => some (.int i)
  | .float d =>
    match Double.toInt64? d with
    | some i => some (.int i)
    | none => if Double.isNaN d then none else some (.float d.bits)
  | .str s => some (.str s)
  | .table r => some (.table r)
  | .closure r => some (.closure r)
  | .native f => some (.native f)

/-- The 32-bit hash of a text: each byte is mixed in by exclusive or and a multiplication. -/
def textHash (s : String) : UInt32 :=
  s.toList.foldl (fun h c => (h ^^^ c.toNat.toUInt32) * 16777619) 2166136261

/-- The hash functions of the standard library. -/
structure Hashing where
  int : Int64 → UInt64
  float : Double → UInt64
  object : Ref → UInt64
  native : Native → UInt64

/-- The hash of a value; a float that is an integer has the hash of that integer. -/
def Value.hash (h : Hashing) : Value → UInt64
  | .nil => 0
  | .bool b => if b then 1 else 2
  | .int i => h.int i
  | .float d =>
    match Double.toInt64? d with
    | some i => h.int i
    | none => h.float d
  | .str s => (textHash s).toUInt64
  | .table r => h.object r
  | .closure r => h.object r
  | .native f => h.native f

end LuaMachine
