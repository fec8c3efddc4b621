import LuaMachine.CommandLine
/-! # The program

Texts are strings of bytes inside and bytes outside; output is written after each program that was
run.
-/
set_option autoImplicit false

namespace LuaMachine.Main

def ofBytes (bytes : ByteArray) : String :=
  String.ofList (bytes.toList.map fun b => Char.ofNat b.toNat)

def toBytes (s : String) : ByteArray :=
  s.foldl (fun bytes c => bytes.push c.toNat.toUInt8) .empty

/-- Writes what the machine has put out, and forgets it. -/
def flush (m : Machine) : IO Machine := do
  let out ← IO.getStdout
  let err ← IO.getStderr
  out.write (toBytes m.output)
  out.flush
  err.write (toBytes m.errors)
  err.flush
  return { m with output := "", errors := "" }

/-- The bytes of a file, if it can be opened; a directory has none. -/
def readFile (path : String) : IO (Option String) := do
  match String.fromUTF8? (toBytes path) with
  | none => return none
  | some path =>
    try
      return some (ofBytes (← IO.FS.readBinFile path))
    catch
      | .inappropriateType .. => return some ""
      | _ => return none

/-- The bytes up to the next line break; none at the end of the input. -/
partial def readLine (input : IO.FS.Stream) (line : ByteArray) : IO (Option String) := do
  let bytes ← input.read 1
  match bytes.toList with
  | [] => return if line.isEmpty then none else some (ofBytes line)
  | b :: _ => if b = 10 then return some (ofBytes line) else readLine input (line.push b)

partial def interact (input : IO.FS.Stream) (m : Machine) : IO Unit := do
  let m ← flush m
  match ← readLine input .empty with
  | none =>
    let _ ← flush (CommandLine.endInput m)
  | some line =>
    match CommandLine.enterLine line m with
    | some m => interact input m
    | none => return

end LuaMachine.Main

open LuaMachine

def main (arguments : List String) : IO UInt32 := do
  let arguments := arguments.map fun a => Main.ofBytes a.toUTF8
  match CommandLine.begin arguments with
  | .over code m =>
    let _ ← Main.flush m
    return code.number.toUInt32
  | .script s m =>
    let m ← Main.flush m
    let (code, m) := CommandLine.runScript s (← Main.readFile s.script) m
    let _ ← Main.flush m
    return code.number.toUInt32
  | .interactive m =>
    Main.interact (← IO.getStdin) m
    return 0
