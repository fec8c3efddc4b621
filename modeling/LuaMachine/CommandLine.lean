import LuaMachine.Listing
import LuaMachine.Machine.Embedding
/-! # The command line

The arguments say what is run: a text given as an argument, then a script, or without a script the
lines of the input one by one. Programs run in one machine, so globals outlive a line.

* `CommandLine.readArguments`: the settings that the arguments ask for.
* `CommandLine.begin`: what happens before a script or a line is read.
* `CommandLine.runScript`, `CommandLine.enterLine`, `CommandLine.endInput`: what happens then.
* `CommandLine.run`: all of it, for given files and input.
-/
set_option autoImplicit false

namespace LuaMachine.CommandLine

inductive ExitCode where
  | ok | scriptError | usage | internal
deriving DecidableEq, Repr

def ExitCode.number : ExitCode → Nat
  | .ok => 0
  | .scriptError => 1
  | .usage => 64
  | .internal => 70

/-! ## Arguments -/

/-- An empty name of a script stands for none. -/
structure Settings where
  options : Options := {}
  listOnly : Bool := false
  script : String := ""
  code : Option String := none

/-- Why nothing is run. -/
inductive Refusal where
  | help
  | missingCode
  | unknownOption (argument : String)
  | tooMany
deriving DecidableEq, Repr

def usage : String :=
  "Usage: rlua [options] [script]\n"
    ++ "  Options:\n"
    ++ "    -e code          Execute the string 'code'\n"
    ++ "    -l               List the compiled bytecode instead of running\n"
    ++ "    -v, --verbose    Trace every instruction and print debug messages\n"
    ++ "    --gc-log         Report every garbage collection\n"
    ++ "    --gc-stress      Collect garbage at every allocation\n"
    ++ "    -h, --help       Print this help message\n"
    ++ "  Run without a script to start the REPL\n"

def errorLine (text : String) : String := "Error: " ++ text ++ "\n"

namespace Refusal

def exitCode : Refusal → ExitCode
  | .help => .ok
  | _ => .usage

/-- The usage behind what is wrong. -/
def text : Refusal → String
  | .help => usage
  | .missingCode => errorLine "-e option requires an argument" ++ usage
  | .unknownOption argument => errorLine ("Unknown option: " ++ argument) ++ usage
  | .tooMany => errorLine "Too many arguments" ++ usage

end Refusal

inductive Flag where
  | verbose | list | code | logCollections | stress | help | last | unknown
deriving DecidableEq, Repr

/-- The flag that an argument is, if it looks like one. -/
def flag? (argument : String) : Option Flag :=
  if argument = "-v" || argument = "--verbose" then some .verbose
  else if argument = "-l" then some .list
  else if argument = "-e" then some .code
  else if argument = "--gc-log" then some .logCollections
  else if argument = "--gc-stress" then some .stress
  else if argument = "-h" || argument = "--help" then some .help
  else if argument = "--" then some .last
  else if argument.startsWith "-" then some .unknown
  else none

/-- Reads the arguments from left to right; `flags` says whether there can still be flags. -/
def readArguments (flags : Bool) (s : Settings) : List String → Except Refusal Settings
  | [] => .ok s
  | argument :: rest =>
    match if flags then flag? argument else none with
    | some .verbose =>
      readArguments flags { s with options := { s.options with trace := true, verbose := true } } rest
    | some .list => readArguments flags { s with listOnly := true } rest
    | some .code =>
      match rest with
      | [] => .error .missingCode
      | code :: rest => readArguments flags { s with code := some code } rest
    | some .logCollections =>
      readArguments flags { s with options := { s.options with logCollections := true } } rest
    | some .stress =>
      readArguments flags { s with options := { s.options with stress := true } } rest
    | some .help => .error .help
    | some .last => readArguments false s rest
    | some .unknown => .error (.unknownOption argument)
    | none =>
      if s.script.isEmpty then readArguments flags { s with script := argument } rest
      else .error .tooMany

/-! ## Running a text -/

open Machine

def complain (text : String) : Exec Unit := modify fun m => { m with errors := m.errors ++ text }

def debug (text : String) : Exec Unit := do
  if (← get).options.verbose then complain ("Debug: " ++ text ++ "\n")

/-- The message of a compile error, with the line in front if it is known. -/
def compileErrorLine (e : CompileError) (name : String) : String :=
  let text := errorLine (name ++ ": " ++ e.message)
  match e.line with
  | some n => "[line " ++ Listing.nat n ++ "] " ++ text
  | none => text

/-- The sizes of a compiled program. -/
def summary (p : Prototype) (name : String) : String :=
  "compiled " ++ name ++ ": " ++ Listing.nat p.chunk.size ++ " instructions, "
    ++ Listing.nat p.chunk.constants.size ++ " constants, " ++ Listing.nat p.registers
    ++ " registers"

def runProgram (listOnly : Bool) (name : String) (p : Program) : Exec ExitCode := do
  debug (summary p.prototype name)
  if listOnly then
    write p.prototype.listing
    return .ok
  else
    match ← invoke (← instantiate p none) [] with
    | .ok _ => return .ok
    | .error v =>
      complain (errorLine v.toText)
      return .scriptError

/-- The text of a fault that no script can cause. -/
def faultText : Fault → String
  | .script _ text => text
  | .runtime e => e.message
  | .outOfMemory => outOfMemoryText
  | .defect text => Fault.defectText text
  | .outOfRange => Fault.defectText "place out of range"
  | .outOfSteps => Fault.defectText "step budget used up"

/-- Compiles and runs a text, and reports what goes wrong. -/
def runSource (listOnly : Bool) (text name : String) : Exec ExitCode :=
  tryCatch (do
    match ← compileText text name with
    | .ok p => runProgram listOnly name p
    | .error e =>
      complain (compileErrorLine e name)
      return .scriptError) fun fault => do
        complain (errorLine (faultText fault))
        return .internal

/-- The exit code and the machine after a computation. -/
def perform (x : Exec ExitCode) (m : Machine) : ExitCode × Machine :=
  match x.run m with
  | .ok code m => (code, m)
  | .error fault m => (.internal, { m with errors := m.errors ++ errorLine (faultText fault) })

/-! ## A session -/

/-- How a session goes on: it is over, or a script or the first line is to be read. -/
inductive Session where
  | over (code : ExitCode) (m : Machine)
  | script (settings : Settings) (m : Machine)
  | interactive (m : Machine)

def greeting : String := "rlua - Type 'exit' to quit\n"

def prompt (m : Machine) : Machine := { m with output := m.output ++ "> " }

/-- The greeting and the first prompt; that lines are not listed is said first. -/
def greet (listOnly : Bool) (m : Machine) : Machine :=
  let warning := if listOnly then "Warning: -l has no effect in the REPL\n" else ""
  prompt { m with errors := m.errors ++ warning, output := m.output ++ greeting }

/-- A machine with the base library. -/
def newMachine (options : Options) : Machine :=
  match openBase.run (create options #[]) with
  | .ok _ m => m
  | .error _ m => m

/-- Runs the text among the arguments. If it fails, or there is no script behind it, the session is
over. -/
def begin (arguments : List String) : Session :=
  match readArguments true {} arguments with
  | .error refusal => .over refusal.exitCode { create {} #[] with errors := refusal.text }
  | .ok s =>
    let m := newMachine s.options
    match s.code with
    | some code =>
      let (status, m) := perform (runSource s.listOnly code "(command line)") m
      if status ≠ .ok || s.script.isEmpty then .over status m else .script s m
    | none => if s.script.isEmpty then .interactive (greet s.listOnly m) else .script s m

/-- Runs a script, if its file could be read. -/
def runScript (s : Settings) (content : Option String) (m : Machine) : ExitCode × Machine :=
  match content with
  | some text => perform (runSource s.listOnly text s.script) m
  | none =>
    perform (do
      complain (errorLine ("Could not open file: " ++ s.script))
      return .scriptError) m

/-- Runs a line, unless it is empty or ends the session. -/
def enterLine (line : String) (m : Machine) : Option Machine :=
  if line = "exit" || line = "quit" then none
  else if line.isEmpty then some (prompt m)
  else some (prompt (perform (runSource false line "stdin") m).2)

def endInput (m : Machine) : Machine := { m with output := m.output ++ "\n" }

def enterLines : List String → Machine → Machine
  | [], m => endInput m
  | line :: rest, m =>
    match enterLine line m with
    | some m => enterLines rest m
    | none => m

/-- The lines of a text; a line break at its end begins no further line. -/
def lines (text : String) : List String :=
  let parts := text.splitOn "\n"
  if parts.getLast? = some "" then parts.dropLast else parts

/-- A whole session, given the files that can be read and the input. -/
def run (arguments : List String) (readFile : String → Option String) (input : String) :
    ExitCode × Machine :=
  match begin arguments with
  | .over code m => (code, m)
  | .script s m => runScript s (readFile s.script) m
  | .interactive m => (.ok, enterLines (lines input) m)

end LuaMachine.CommandLine
