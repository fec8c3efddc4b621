import LuaMachine.Proofs.Scoping.Sites
/-! # Where jumps may stand

`break`, `goto` and labels are bound by rules of the language, which look at the blocks around them
in their function, the innermost one first, and in each block at the statements before and behind.

* `Jumps.Place`: a jump or label with the blocks around it.
* `Jumps.ofBlock`: the places of a block, without those of functions inside of it.
* `Jumps.Place.Legal`: the rules.
* `Jumps.bodies`: the bodies of the functions of a program.
-/
set_option autoImplicit false

namespace LuaMachine

/-- The name of a label. -/
def Stmt.labelName? : Stmt → Option String
  | .label name _ => some name
  | _ => none

namespace Jumps

/-! ## Blocks around a statement -/

/-- The condition of a `repeat` loop still sees the variables of the body. -/
inductive Kind where
  | plain
  | loop
  | repeats
deriving DecidableEq

def Kind.isLoop : Kind → Bool
  | .plain => false
  | .loop => true
  | .repeats => true

/-- A block as it is seen from one of its statements. -/
structure Enclosure where
  kind : Kind
  before : List Stmt
  after : List Stmt

/-- The labels that are statements of a list, not those of blocks inside of it. -/
def labels (ss : List Stmt) : List String := ss.filterMap Stmt.labelName?

theorem mem_labels_append {before : List Stmt} {s : Stmt} {name : String} :
    name ∈ labels (before ++ [s]) ↔ name ∈ labels before ∨ s.labelName? = some name := by
  simp [labels, List.filterMap_append, List.mem_filterMap, eq_comm]

theorem mem_labels_cons {rest : List Stmt} {s : Stmt} {name : String} :
    name ∈ labels (s :: rest) ↔ s.labelName? = some name ∨ name ∈ labels rest := by
  simp [labels, List.mem_filterMap, or_and_right, exists_or]

/-- The block has this label. -/
def Enclosure.holds (e : Enclosure) (name : String) : Bool :=
  (labels e.before).contains name || (labels e.after).contains name

/-- From the statement to the label behind it in the block, a variable of the block is declared; and
the label is not at the end of the block, or it is and the variable is still seen there. -/
def Enclosure.Skips (e : Enclosure) (name : String) : Prop :=
  ∃ between line rest, e.after = between ++ .label name line :: rest ∧ name ∉ labels between ∧
    between.flatMap Stmt.declared ≠ [] ∧ (e.kind = .repeats ∨ rest.all Stmt.isLabel = false)

/-! ## Places -/

inductive Mark where
  | exit
  | goto (name : String)
  | label (name : String)
deriving DecidableEq

/-- A jump or label with the blocks around it in its function, the innermost one first. -/
structure Place where
  mark : Mark
  around : List Enclosure

def Place.within (e : Enclosure) (p : Place) : Place := { p with around := p.around ++ [e] }

mutual

def ofStmt : Stmt → List Place
  | .exit _ => [⟨.exit, []⟩]
  | .goto name _ => [⟨.goto name, []⟩]
  | .label name _ => [⟨.label name, []⟩]
  | .block body _ => ofBlock .plain [] body
  | .cond _ body more otherwise _ =>
    ofBlock .plain [] body ++ ofBranches more ++
      match otherwise with
      | none => []
      | some body => ofBlock .plain [] body
  | .whileLoop _ body _ => ofBlock .loop [] body
  | .repeatLoop body _ _ => ofBlock .repeats [] body
  | .numericFor _ _ _ _ body _ => ofBlock .loop [] body
  | .genericFor _ _ body _ => ofBlock .loop [] body
  | _ => []

def ofBranches : List Branch → List Place
  | [] => []
  | .mk _ body :: rest => ofBlock .plain [] body ++ ofBranches rest

/-- The places of the further statements of a block. -/
def ofBlock (kind : Kind) (before : List Stmt) : List Stmt → List Place
  | [] => []
  | s :: rest =>
    (ofStmt s).map (Place.within ⟨kind, before, rest⟩) ++ ofBlock kind (before ++ [s]) rest

end

/-- A `break` is inside of a loop. No block around a label has that label before. A `goto` has its
label in a block around it; if this label is still to come in the innermost such block, then no
variable of that block is declared on the way, or the label is beyond all variables. -/
def Place.Legal (p : Place) : Prop :=
  match p.mark with
  | .exit => ∃ e ∈ p.around, e.kind.isLoop = true
  | .label name => ∀ e ∈ p.around, name ∉ labels e.before
  | .goto name =>
    ∃ e, p.around.find? (fun e => e.holds name) = some e ∧
      (name ∈ labels e.before ∨ ¬ e.Skips name)

/-- All places of a function with this body are legal. -/
def Lawful (body : Block) : Prop := ∀ p ∈ ofBlock .plain [] body, p.Legal

/-! ## Functions -/

def body? : Site → Option Block
  | .function _ (.mk _ _ _ body _ _) => some body
  | _ => none

/-- The bodies of the functions of a program, that of the main program first. -/
def bodies (program : Block) : List Block := program :: (sites program).filterMap body?

end Jumps
end LuaMachine
