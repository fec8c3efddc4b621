import LuaMachine.Prototype
/-! # Scopes of functions being compiled

A function's local variables live in the registers `0 .. n - 1` in the order of their declaration;
temporary values live above them and are given back in the opposite order. A block's registers are
free again when the block ends. A name that is no local variable is looked up in the enclosing
functions, and each function on the way gets an upvalue for it.

* `FunctionScope`: the state of one function, with the prototype that is being built.
* `reserve`, `release`, `ensureRegisters`, `addLocal`, `beginBlock`, `endBlock`.
* `resolve`: what a name stands for, in a list of scopes with the innermost first.
-/
set_option autoImplicit false

namespace LuaMachine

/-! ## State -/

structure Local where
  name : String
  register : Nat
  captured : Bool
  constant : Bool
  start : Nat

/-- A label, with the number of registers that hold variables there. -/
structure PlacedLabel where
  name : String
  position : Nat
  level : Nat

/-- A jump to a label that is still to come, with the highest register at the jump that holds a
captured variable. -/
structure PendingJump where
  name : String
  position : Nat
  highestCaptured : Option Nat

/-- An open block; `level` is the number of registers that held variables when it began. -/
structure ScopeBlock where
  level : Nat
  isLoop : Bool
  hasCaptured : Bool := false
  labels : List PlacedLabel := []
  gotos : List PendingJump := []
  breaks : List Nat := []

/-- Local variables and blocks with the innermost last and first, respectively. -/
structure FunctionScope where
  proto : Prototype
  locals : Array Local := #[]
  constantUpvalues : Array Bool := #[]
  blocks : List ScopeBlock := []
  free : Int := 0

namespace FunctionScope

def maxRegisters : Nat := 250

def maxUpvalues : Nat := 255

/-- A scope in which nothing is declared yet. -/
def create (proto : Prototype) : FunctionScope :=
  { proto := proto, constantUpvalues := Array.replicate proto.upvalues.size false }

def localsLevel (s : FunctionScope) : Nat := s.locals.size

/-- The position of the next instruction. -/
def position (s : FunctionScope) : Nat := s.proto.chunk.size

/-! ## Registers -/

/-- Makes sure that the function has this many registers. -/
def ensureRegisters (s : FunctionScope) (count : Int) (line : Nat) :
    Except CompileFault FunctionScope :=
  if maxRegisters < count then
    .error (.at "function or expression needs too many registers" line)
  else if s.proto.registers < count then
    .ok { s with proto := { s.proto with registers := count.toNat } }
  else .ok s

/-- Takes the next registers and gives the first of them; a negative count gives some back, even
below the variables. -/
def reserve (s : FunctionScope) (count : Int) (line : Nat) :
    Except CompileFault (FunctionScope × Int) :=
  match s.ensureRegisters (s.free + count) line with
  | .ok s => .ok ({ s with free := s.free + count }, s.free)
  | .error e => .error e

/-- Gives back the registers from this one on, which must be above the variables. -/
def release (s : FunctionScope) (register : Int) : Except CompileFault FunctionScope :=
  if register < s.localsLevel || s.free < register then
    .error (.defect "register release out of order")
  else .ok { s with free := register }

/-! ## Local variables -/

/-- Declares a variable, whose value is already in the next register. -/
def addLocal (s : FunctionScope) (name : String) (captured constant : Bool) :
    Except CompileFault FunctionScope :=
  let register := s.localsLevel
  if s.free ≤ register then
    .error (.defect ("local '" ++ name ++ "' declared without a register"))
  else
    .ok { s with
      locals := s.locals.push ⟨name, register, captured, constant, s.position⟩
      blocks := s.blocks.modifyHead fun b =>
        { b with hasCaptured := b.hasCaptured || captured } }

/-- The innermost variable of a name. -/
def findLocal (s : FunctionScope) (name : String) : Option Local :=
  s.locals.findRev? fun l => l.name == name

def highestCaptured (s : FunctionScope) : Option Nat :=
  (s.locals.findRev? fun l => l.captured).map (·.register)

/-! ## Upvalues -/

def findUpvalue (s : FunctionScope) (name : String) : Option Nat :=
  s.proto.upvalues.findIdx? fun u => u.name == name

def addUpvalue (s : FunctionScope) (source : UpvalueSource) (constant : Bool) (line : Nat) :
    Except CompileFault FunctionScope :=
  if maxUpvalues ≤ s.proto.upvalues.size then .error (.at "too many upvalues" line)
  else
    .ok { s with
      proto := { s.proto with upvalues := s.proto.upvalues.push source }
      constantUpvalues := s.constantUpvalues.push constant }

/-! ## Blocks -/

def beginBlock (s : FunctionScope) (isLoop : Bool) : FunctionScope :=
  { s with blocks := { level := s.localsLevel, isLoop := isLoop } :: s.blocks }

/-- Ends the innermost block, if there is one: its variables are recorded with the instructions
during which they lived, and its registers are free. -/
def endBlock (s : FunctionScope) : FunctionScope × Option ScopeBlock :=
  match s.blocks with
  | [] => (s, none)
  | block :: outer =>
    let stop := s.position
    let ended := (s.locals.extract block.level s.locals.size).map fun l =>
      (⟨l.name, l.start, stop, l.register⟩ : LocalRange)
    ({ s with
        proto := { s.proto with locals := s.proto.locals ++ ended }
        locals := s.locals.extract 0 block.level
        blocks := outer
        free := block.level },
      some block)

def innermostLoop (s : FunctionScope) : Option ScopeBlock := s.blocks.find? (·.isLoop)

end FunctionScope

/-! ## Names -/

/-- What a name stands for. -/
inductive Reference where
  | register (index : Nat) (constant : Bool)
  | upvalue (index : Nat) (constant : Bool)
  | global
deriving DecidableEq, Repr

def Reference.isConstant : Reference → Bool
  | .register _ c => c
  | .upvalue _ c => c
  | .global => false

/-- The outcome of a look-up that can add upvalues: the scopes, also after an error. -/
abbrev Lookup (α : Type) := List FunctionScope × Except CompileFault α

namespace FunctionScope

/-- Adds an upvalue to the innermost scope and gives its index. -/
def addedUpvalue (s : FunctionScope) (outer : List FunctionScope) (source : UpvalueSource)
    (constant : Bool) (line : Nat) : Lookup (Option (Nat × Bool)) :=
  match s.addUpvalue source constant line with
  | .ok s' => (s' :: outer, .ok (some (s.proto.upvalues.size, constant)))
  | .error e => (s :: outer, .error e)

/-- The upvalue of the innermost function that stands for a variable of an outer one. It is taken
from a register of the function around it, or else from an upvalue of that function, which is
found in the same way. -/
def resolveUpvalue (name : String) (line : Nat) :
    List FunctionScope → Lookup (Option (Nat × Bool))
  | [] => ([], .ok none)
  | s :: outer =>
    match s.findUpvalue name with
    | some i => (s :: outer, .ok (some (i, s.constantUpvalues.getD i false)))
    | none =>
      match (outer.head?.bind fun enclosing => enclosing.findLocal name) with
      | some l =>
        if l.captured then s.addedUpvalue outer ⟨name, true, l.register⟩ l.constant line
        else
          (s :: outer,
            .error (.defect ("capture of '" ++ name ++ "' was not recorded by the analyzer")))
      | none =>
        match resolveUpvalue name line outer with
        | (outer, .ok (some (i, constant))) =>
          s.addedUpvalue outer ⟨name, false, i⟩ constant line
        | (outer, .ok none) => (s :: outer, .ok none)
        | (outer, .error e) => (s :: outer, .error e)

def resolve (name : String) (line : Nat) (scopes : List FunctionScope) : Lookup Reference :=
  match (scopes.head?.bind fun s => s.findLocal name) with
  | some l => (scopes, .ok (.register l.register l.constant))
  | none =>
    match resolveUpvalue name line scopes with
    | (scopes, .ok (some (i, constant))) => (scopes, .ok (.upvalue i constant))
    | (scopes, .ok none) => (scopes, .ok .global)
    | (scopes, .error e) => (scopes, .error e)

end FunctionScope
end LuaMachine
