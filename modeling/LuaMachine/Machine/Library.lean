import LuaMachine.Machine.Program
/-! # The base library

What the functions of the base library do with their arguments. They look at their arguments in
order; what they find wrong first is the error.

* `BaseFunction.name`, `BaseFunction.registered`: the global names.
* `BaseFunction.run`: what a function does.
-/
set_option autoImplicit false

namespace LuaMachine

namespace BaseFunction

/-- The name of a function in error messages. The function that steps through a sequence goes by
the name of the one that gives it out. -/
def name : BaseFunction → String
  | .print => "print"
  | .type => "type"
  | .tostring => "tostring"
  | .tonumber => "tonumber"
  | .error => "error"
  | .pcall => "pcall"
  | .assert => "assert"
  | .select => "select"
  | .next => "next"
  | .pairs => "pairs"
  | .ipairs => "ipairs"
  | .ipairsStep => "ipairs"
  | .rawequal => "rawequal"
  | .rawget => "rawget"
  | .rawset => "rawset"
  | .rawlen => "rawlen"
  | .collectgarbage => "collectgarbage"
  | .load => "load"

/-- The functions that are global, in the order in which they become so. -/
def registered : List BaseFunction :=
  [.print, .type, .tostring, .tonumber, .error, .pcall, .assert, .select, .next, .pairs, .ipairs,
   .rawequal, .rawget, .rawset, .rawlen, .collectgarbage, .load]

end BaseFunction

/-! ## Arguments -/

namespace Argument

def bad (f : BaseFunction) (i : Nat) (reason : String) : RuntimeError :=
  .argument (i + 1) f.name reason

def expected (f : BaseFunction) (i : Nat) (kind : String) (args : List Value) : RuntimeError :=
  let found :=
    match args[i]? with
    | some v => v.kind.name
    | none => "no value"
  bad f i (kind ++ " expected, got " ++ found)

def any (f : BaseFunction) (i : Nat) (args : List Value) : Except RuntimeError Value :=
  match args[i]? with
  | some v => .ok v
  | none => .error (bad f i "value expected")

def table (f : BaseFunction) (i : Nat) (args : List Value) : Except RuntimeError Ref :=
  match args[i]? with
  | some (.table r) => .ok r
  | _ => .error (expected f i "table" args)

def text (f : BaseFunction) (i : Nat) (args : List Value) : Except RuntimeError String :=
  match args[i]? with
  | some (.str s) => .ok s
  | _ => .error (expected f i "string" args)

def integer (f : BaseFunction) (i : Nat) (args : List Value) : Except RuntimeError Int64 :=
  match args[i]? with
  | some (.int n) => .ok n
  | some (.float d) =>
    match Double.toInt64? d with
    | some n => .ok n
    | none => .error (bad f i "number has no integer representation")
  | _ => .error (expected f i "number" args)

end Argument

/-! ## Functions of their arguments alone -/

namespace Library

open Argument

/-- A number is itself, and a text is the number that it reads as; with a base, a text is the
integer that its digits stand for. -/
def tonumber (args : List Value) : Except RuntimeError Value := do
  let v ← any .tonumber 0 args
  match args.getD 1 .nil with
  | .nil =>
    match v with
    | .int i => return .int i
    | .float d => return .float d
    | .str s =>
      match Numeral.read s.toList with
      | some n => return .ofNumber n
      | none => return .nil
    | _ => return .nil
  | _ =>
    let base ← integer .tonumber 1 args
    if base < 2 || 36 < base then throw (bad .tonumber 1 "base out of range")
    let s ← text .tonumber 0 args
    match Numeral.readInBase base.toUInt64.toNat s.toList with
    | some i => return .int i
    | none => return .nil

/-- The number of the arguments behind the first, or those from a position on; a negative position
counts from the end. -/
def select (args : List Value) : Except RuntimeError (List Value) := do
  let count : Int := args.length - 1
  match args with
  | .str "#" :: _ => return [.int (Int64.ofInt count)]
  | _ =>
    let n := (← integer .select 0 args).toInt
    let position := if n < 0 then count + n + 1 else n
    if position ≤ 0 then throw (bad .select 0 "index out of range")
    return args.drop position.toNat

end Library

/-! ## Functions at work -/

namespace BaseFunction

open Argument Machine

/-- What a function does with its arguments. -/
def run (f : BaseFunction) (args : List Value) : Exec NativeStep := do
  match f with
  | .print =>
    write ("\t".intercalate (args.map Value.toText) ++ "\n")
    return .done []
  | .type =>
    let v ← ofExcept (any f 0 args)
    return .done [← newText v.kind.name]
  | .tostring =>
    match ← ofExcept (any f 0 args) with
    | .str s => return .done [.str s]
    | v => return .done [← newText v.toText]
  | .tonumber => return .done [← ofExcept (Library.tonumber args)]
  | .error =>
    let v := args.headD .nil
    throw (.script v (errorText v))
  | .pcall =>
    let callee ← ofExcept (any f 0 args)
    return .protect callee (args.drop 1) fun ok values => .done (.bool ok :: values)
  | .assert =>
    let v ← ofExcept (any f 0 args)
    if v.isFalsey then
      match args[1]? with
      | some e => throw (.script e (errorText e))
      | none => raise .assertion
    return .done args
  | .select => return .done (← ofExcept (Library.select args))
  | .next =>
    let r ← ofExcept (table f 0 args)
    match ← ofExcept (((← get).heap.table r).next (args.getD 1 .nil)) with
    | some (k, v) => return .done [k, v]
    | none => return .done [.nil]
  | .pairs =>
    let r ← ofExcept (table f 0 args)
    return .done [.native (.base .next), .table r, .nil]
  | .ipairs =>
    let r ← ofExcept (table f 0 args)
    return .done [.native (.base .ipairsStep), .table r, .int 0]
  | .ipairsStep =>
    let r ← ofExcept (table f 0 args)
    let i := (← ofExcept (integer f 1 args)) + 1
    match ((← get).heap.table r).getInt i with
    | .nil => return .done [.nil]
    | v => return .done [.int i, v]
  | .rawequal =>
    let a ← ofExcept (any f 0 args)
    let b ← ofExcept (any f 1 args)
    return .done [.bool (a.rawEq b)]
  | .rawget =>
    let r ← ofExcept (table f 0 args)
    let k ← ofExcept (any f 1 args)
    return .done [((← get).heap.table r).get k]
  | .rawset =>
    let r ← ofExcept (table f 0 args)
    let k ← ofExcept (any f 1 args)
    let v ← ofExcept (any f 2 args)
    setKey r k v
    return .done [.table r]
  | .rawlen =>
    match args.headD .nil with
    | .table r => return .done [.int (Int64.ofNat ((← get).heap.table r).length)]
    | .str s => return .done [.int (Int64.ofNat s.length)]
    | _ => raise (bad f 0 "table or string expected")
  | .collectgarbage =>
    let option ←
      match args.headD .nil with
      | .nil => pure "collect"
      | _ => ofExcept (text f 0 args)
    if option = "count" then
      return .done [.float (Double.ofRatio false (← get).heap.bytes 1024)]
    else if option = "collect" then
      collectGarbage
      return .done [.int 0]
    else if option = "step" then
      collectGarbage
      return .done [.bool true]
    else raise (bad f 0 ("invalid option '" ++ option ++ "'"))
  | .load =>
    let source ← ofExcept (text f 0 args)
    let name := ((text f 1 args).toOption).getD "(load)"
    match ← compileText source name with
    | .ok p => return .done [.closure (← instantiate p none)]
    | .error e => return .done [.nil, ← newText (e.located name)]

end BaseFunction
end LuaMachine
