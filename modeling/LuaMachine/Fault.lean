import LuaMachine.Value
/-! # Faults

What can go wrong, as causes; the wording of each is in one place.

* `RuntimeError`: an operation that a script may not perform, and `RuntimeError.message`.
* `CompileError`: a text that is no program.
* `Fault`: how a running script can stop before its end.
-/
set_option autoImplicit false

namespace LuaMachine

/-- The three control expressions of a numeric loop. -/
inductive LoopPart where
  | initial | limit | step
deriving DecidableEq, Repr

def LoopPart.name : LoopPart → String
  | .initial => "initial value"
  | .limit => "limit"
  | .step => "step"

inductive RuntimeError where
  | arithmetic (operand : Kind)
  | bitwise (operand : Kind)
  | noInteger
  | divisionByZero
  | moduloByZero
  | comparison (left right : Kind)
  | nilKey
  | nanKey
  | unknownKey
  | indexed (object : Kind)
  | called (callee : Kind)
  | measured (operand : Kind)
  | concatenated (operand : Kind)
  | loopPart (part : LoopPart)
  | zeroStep
  | stackOverflow
  | nativeOverflow
  | argument (position : Nat) (function reason : String)
  | assertion
  | host (text : String)
deriving DecidableEq, Repr

def RuntimeError.message : RuntimeError → String
  | .arithmetic k => "attempt to perform arithmetic on a " ++ k.name ++ " value"
  | .bitwise k => "attempt to perform bitwise operation on a " ++ k.name ++ " value"
  | .noInteger => "number has no integer representation"
  | .divisionByZero => "attempt to perform 'n//0'"
  | .moduloByZero => "attempt to perform 'n%%0'"
  | .comparison a b =>
    if a = b then "attempt to compare two " ++ a.name ++ " values"
    else "attempt to compare " ++ a.name ++ " with " ++ b.name
  | .nilKey => "index is nil"
  | .nanKey => "index is NaN"
  | .unknownKey => "invalid key to 'next'"
  | .indexed k => "attempt to index a " ++ k.name ++ " value"
  | .called k => "attempt to call a " ++ k.name ++ " value"
  | .measured k => "attempt to get length of a " ++ k.name ++ " value"
  | .concatenated k => "attempt to concatenate a " ++ k.name ++ " value"
  | .loopPart p => "'for' " ++ p.name ++ " must be a number"
  | .zeroStep => "'for' step is zero"
  | .stackOverflow => "stack overflow"
  | .nativeOverflow => "C stack overflow"
  | .argument n f reason =>
    "bad argument #" ++ toString n ++ " to '" ++ f ++ "' (" ++ reason ++ ")"
  | .assertion => "assertion failed!"
  | .host text => text

/-- The message with the word that announces it. -/
def RuntimeError.announced (e : RuntimeError) : String := "Error: " ++ e.message

/-- A text that is no program: what is wrong, and in which line if that is known. -/
structure CompileError where
  message : String
  line : Option Nat
deriving DecidableEq, Repr

def CompileError.announced (e : CompileError) : String :=
  match e.line with
  | some n => "[line " ++ toString n ++ "] Compile Error: " ++ e.message
  | none => "Compile Error: " ++ e.message

/-- The message behind the name of the chunk and the line. -/
def CompileError.located (e : CompileError) (chunk : String) : String :=
  match e.line with
  | some n => chunk ++ ":" ++ toString n ++ ": " ++ e.message
  | none => chunk ++ ": " ++ e.message

/-- What compiling can end in: the text is no program, or the compiler broke a rule of its own. -/
inductive CompileFault where
  | error (e : CompileError)
  | defect (text : String)
deriving DecidableEq, Repr

def CompileFault.at (message : String) (line : Nat) : CompileFault := .error ⟨message, some line⟩

/-- The ways in which a run stops early. A script can catch the first three; a defect, a place out
of range and the end of the step budget go through to the embedder. -/
inductive Fault where
  /-- an error value on its way to the handler, and its text -/
  | script (value : Value) (text : String)
  /-- an error that has no position yet -/
  | runtime (error : RuntimeError)
  | outOfMemory
  | defect (text : String)
  | outOfRange
  | outOfSteps

def Fault.defectText (text : String) : String := "Internal Error: " ++ text

/-- The text of an error value that is raised: its own if it is a text, else its kind. -/
def errorText : Value → String
  | .str s => s
  | v => "(error object is a " ++ v.kind.name ++ " value)"

end LuaMachine
