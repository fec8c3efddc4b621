import LuaMachine.Tree.Capture
/-! # Names and what is in scope

Some places of a program make sense only where they stand: names that are used, functions, targets
of assignments, and `break`. Here they are listed with what is in scope there, by the rules of
the language alone: a statement has its variables in scope behind it, a loop in its body, a function
in its body, and the condition of a `repeat` loop still sees the variables of the body.

* `Surroundings`: what is in scope at a place.
* `Sites.expr`, `Sites.stmts`: the places in a tree.
* `Site.Heeded`: the captured variables are all that a place needs, and a `break` stands in a loop.
* `Site.Regular`: what the grammar demands of a place.
-/
set_option autoImplicit false

namespace LuaMachine

/-! ## What is in scope -/

/-- The name of the variables that hold the state of a loop; it is no name of the language. -/
def loopState : String := "(for state)"

/-- A variable: one that a binder declares, or a part of the state of a loop. -/
inductive Slot where
  | declared (b : Binder)
  | hidden

namespace Slot

def name : Slot → String
  | .declared b => b.name
  | .hidden => loopState

def isCaptured (captured : Std.HashSet Nat) : Slot → Bool
  | .declared b => captured.contains b.number
  | .hidden => false

/-- The innermost variable of a name. -/
def find? (slots : List Slot) (name : String) : Option Slot :=
  slots.find? fun s => s.name == name

end Slot

/-- The variables in scope, those of the innermost function and those of the functions around it,
always the innermost first; and whether a loop of the innermost function is open. -/
structure Surroundings where
  own : List Slot := []
  outer : List (List Slot) := []
  inLoop : Bool := false

/-- The variables that a statement leaves in scope behind it. -/
def Stmt.declared : Stmt → List Binder
  | .locals bs _ _ => bs
  | .localFunction b _ _ => [b]
  | _ => []

namespace Surroundings

variable (env : Surroundings)

def declare (bs : List Binder) : Surroundings :=
  { env with own := (bs.map Slot.declared).reverse ++ env.own }

/-- Behind some statements. -/
def after (ss : List Stmt) : Surroundings := env.declare (ss.flatMap Stmt.declared)

/-- In a loop that keeps its state in three variables. -/
def counting : Surroundings :=
  { env with own := List.replicate 3 Slot.hidden ++ env.own }

def loop : Surroundings := { env with inLoop := true }

/-- In a function with these parameters. -/
def inside (params : List Binder) : Surroundings :=
  { own := (params.map Slot.declared).reverse, outer := env.own :: env.outer }

@[simp] theorem declare_nil : env.declare [] = env := by
  simp [declare]

theorem declare_cons (b : Binder) (bs : List Binder) :
    env.declare (b :: bs) = (env.declare [b]).declare bs := by
  simp [declare]

theorem declare_append (bs cs : List Binder) :
    env.declare (bs ++ cs) = (env.declare bs).declare cs := by
  simp [declare]

/-- The variables of the functions around the innermost one. -/
def enclosing : List Slot := env.outer.flatten

end Surroundings

/-! ## Places in a tree -/

/-- A place with what is in scope there. -/
inductive Site where
  | name (env : Surroundings) (name : String)
  | target (e : Expr)
  | function (env : Surroundings) (f : Function)
  | variables (bs : List Binder)
  | exit (env : Surroundings)

namespace Sites

mutual

def expr (env : Surroundings) : Expr → List Site
  | .literal _ _ => []
  | .str _ _ => []
  | .unary _ e _ => expr env e
  | .binary _ l r _ => expr env l ++ expr env r
  | .name n _ => [.name env n]
  | .vararg _ => []
  | .paren e _ => expr env e
  | .call f args _ => expr env f ++ exprs env args
  | .method e _ args _ => expr env e ++ exprs env args
  | .table fs _ => fields env fs
  | .index e k _ => expr env e ++ expr env k
  | .function f => function env f

def exprs (env : Surroundings) : List Expr → List Site
  | [] => []
  | e :: rest => expr env e ++ exprs env rest

def field (env : Surroundings) : Field → List Site
  | .item e => expr env e
  | .pair k e => expr env k ++ expr env e

def fields (env : Surroundings) : List Field → List Site
  | [] => []
  | f :: rest => field env f ++ fields env rest

def function (env : Surroundings) : Function → List Site
  | .mk name params variadic body line endLine =>
    .function env (.mk name params variadic body line endLine) :: stmts (env.inside params) body

def branch (env : Surroundings) : Branch → List Site
  | .mk condition body => expr env condition ++ stmts env body

def branches (env : Surroundings) : List Branch → List Site
  | [] => []
  | b :: rest => branch env b ++ branches env rest

def stmt (env : Surroundings) : Stmt → List Site
  | .expr e _ => expr env e
  | .assign targets values _ => targets.map .target ++ exprs env targets ++ exprs env values
  | .locals _ values _ => exprs env values
  | .localFunction b f _ => function (env.declare [b]) f
  | .function target f _ => .target target :: expr env target ++ function env f
  | .block body _ => stmts env body
  | .cond condition body more otherwise _ =>
    expr env condition ++ stmts env body ++ branches env more ++
      match otherwise with
      | none => []
      | some body => stmts env body
  | .whileLoop condition body _ => expr env condition ++ stmts env.loop body
  | .repeatLoop body condition _ =>
    stmts env.loop body ++ expr (env.loop.after body) condition
  | .numericFor b start stop step body _ =>
    expr env start ++ expr env stop ++
      (match step with
      | none => []
      | some e => expr env e) ++
      stmts (env.counting.loop.declare [b]) body
  | .genericFor bs iterators body _ =>
    .variables bs :: (exprs env iterators ++ stmts (env.counting.loop.declare bs) body)
  | .ret values _ => exprs env values
  | .exit _ => [.exit env]
  | .goto _ _ => []
  | .label _ _ => []

def stmts (env : Surroundings) : List Stmt → List Site
  | [] => []
  | s :: rest => stmt env s ++ stmts (env.declare s.declared) rest

end

end Sites

/-- The places in a program. -/
def sites (program : Block) : List Site := Sites.stmts {} program

/-! ## What holds at a place -/

namespace Surroundings

/-- If the name stands for a variable of an outer function, this variable is captured. -/
def Recorded (env : Surroundings) (captured : Std.HashSet Nat) (name : String) : Prop :=
  Slot.find? env.own name = none →
    ∀ s, Slot.find? env.enclosing name = some s → s.isCaptured captured = true

/-- The name stands for no variable. -/
def Lacks (env : Surroundings) (name : String) : Prop :=
  Slot.find? env.own name = none ∧ Slot.find? env.enclosing name = none

end Surroundings

namespace Site

/-- A name that stands for no variable is a field of `_ENV`. -/
def Heeded (captured : Std.HashSet Nat) : Site → Prop
  | .name env n =>
    env.Recorded captured n ∧ (env.Lacks n → env.Recorded captured "_ENV")
  | .target _ => True
  | .function _ _ => True
  | .variables _ => True
  | .exit env => env.inLoop = true

/-- Names are names of the language, only what can be assigned to is, and a loop over an iterator has
variables. -/
def Regular : Site → Prop
  | .name _ n => n ≠ loopState
  | .target e => e.isTarget = true
  | .function _ _ => True
  | .variables bs => bs ≠ []
  | .exit _ => True

end Site
end LuaMachine
