import LuaMachine.Proofs.Printing.Words
/-! # The grammar of trees

Which trees a program can stand for, by the rules of the language alone. The operators bind, from
loosest to tightest: `or`; `and`; comparisons; `|`; `~`; `&`; shifts; `..`; `+` and `-`; `*`, `/`,
`//` and `%`; unary operators; `^`. An operand that binds less tightly than its place asks for
stands in parentheses, which are nodes of the tree.

* `BinaryOp.level`, `Expr.rank`: how tightly operators and expressions bind.
* `Grammatical`: the trees of the grammar.
* `Unlined.stmts`, `Numbering.stmts`: a tree without its lines, and with its binders numbered in
  the order of their declarations.
* `Nesting.stmts`: the number of syntax levels that a tree takes.
-/
set_option autoImplicit false

namespace LuaMachine

/-! ## How tightly expressions bind -/

/-- The level of an operator; unary operators stand between those of `*` and of `^`. -/
def BinaryOp.level : BinaryOp → Nat
  | .or => 0
  | .and => 1
  | .eq | .ne | .gt | .ge | .lt | .le => 2
  | .bor => 3
  | .bxor => 4
  | .band => 5
  | .shl | .shr => 6
  | .concat => 7
  | .add | .sub => 8
  | .mul | .div | .idiv | .mod => 9
  | .pow => 11

namespace Rank

def unary : Nat := 10

/-- Literals, functions, tables, and what can have suffixes. -/
def simple : Nat := 12

/-- What can be called or indexed. -/
def suffixed : Nat := 13

end Rank

def Expr.rank : Expr → Nat
  | .binary op _ _ _ => op.level
  | .unary _ _ _ => Rank.unary
  | .literal _ _ | .str _ _ | .vararg _ | .table _ _ | .function _ => Rank.simple
  | .name _ _ | .paren _ _ | .call _ _ _ | .method _ _ _ _ | .index _ _ _ => Rank.suffixed

namespace BinaryOp

/-- What the left operand has to be; `..` and `^` associate to the right. -/
def leftRank (op : BinaryOp) : Nat :=
  match op with
  | .concat | .pow => op.level + 1
  | _ => op.level

/-- What the right operand has to be; that of `^` may be a unary operator. -/
def rightRank (op : BinaryOp) : Nat :=
  match op with
  | .concat => op.level
  | .pow => Rank.unary
  | _ => op.level + 1

end BinaryOp

/-! ## Trees of the grammar -/

/-- A function is declared as a method if its first parameter is `self`. -/
def SelfParameter (params : List Binder) : Prop :=
  ∃ n rest, params = ⟨"self", n, false⟩ :: rest

def Stmt.isReturn : Stmt → Bool
  | .ret _ _ => true
  | _ => false

/-- A variable or a field of one, which a function can be declared for. -/
def Expr.isPath : Expr → Bool
  | .index object (.str _ _) _ => object.isPath
  | .name _ _ => true
  | _ => false

namespace Grammar

variable (style : Style)

/-- A numeral stands for the number. -/
def literal : Literal → Prop
  | .number n => Numeral.read (style.numeral n).toList = some n
  | _ => True

mutual

/-- An expression of the grammar; `...` needs a function that takes more arguments. -/
def expr (variadic : Bool) : Expr → Prop
  | .literal value _ => literal style value
  | .str _ _ => True
  | .unary _ e _ => Rank.unary ≤ e.rank ∧ expr variadic e
  | .binary op l r _ =>
    op.leftRank ≤ l.rank ∧ op.rightRank ≤ r.rank ∧ expr variadic l ∧ expr variadic r
  | .name _ _ => True
  | .vararg _ => variadic = true
  | .paren e _ => expr variadic e
  | .call f args _ => f.rank = Rank.suffixed ∧ expr variadic f ∧ exprs variadic args
  | .method e _ args _ => e.rank = Rank.suffixed ∧ expr variadic e ∧ exprs variadic args
  | .table fs _ => fields variadic fs
  | .index e k _ => e.rank = Rank.suffixed ∧ expr variadic e ∧ expr variadic k
  | .function f => f.name = "anonymous" ∧ function false f

def exprs (variadic : Bool) : List Expr → Prop
  | [] => True
  | e :: rest => expr variadic e ∧ exprs variadic rest

def field (variadic : Bool) : Field → Prop
  | .item e => expr variadic e
  | .pair k e => expr variadic k ∧ expr variadic e

def fields (variadic : Bool) : List Field → Prop
  | [] => True
  | f :: rest => field variadic f ∧ fields variadic rest

/-- Parameters have no attributes. -/
def function (method : Bool) : Function → Prop
  | .mk _ params variadic body _ _ =>
    (method = true → SelfParameter params) ∧ (∀ b ∈ params, b.constant = false) ∧
      stmts variadic body

def branch (variadic : Bool) : Branch → Prop
  | .mk condition body => expr variadic condition ∧ stmts variadic body

def branches (variadic : Bool) : List Branch → Prop
  | [] => True
  | b :: rest => branch variadic b ∧ branches variadic rest

def alternative (variadic : Bool) : Option (List Stmt) → Prop
  | none => True
  | some body => stmts variadic body

def increment (variadic : Bool) : Option Expr → Prop
  | none => True
  | some e => expr variadic e

def stmt (variadic : Bool) : Stmt → Prop
  | .expr e _ => e.isCall = true ∧ expr variadic e
  | .assign targets values _ =>
    targets ≠ [] ∧ (∀ e ∈ targets, e.isTarget = true) ∧ exprs variadic targets ∧
      values ≠ [] ∧ exprs variadic values
  | .locals bs values _ => bs ≠ [] ∧ exprs variadic values
  | .localFunction b f _ => b.constant = false ∧ f.name = b.name ∧ function false f
  | .function target f _ =>
    target.isPath = true ∧ (f.isMethodOf target = false → f.name = target.dotted) ∧
      function (f.isMethodOf target) f
  | .block body _ => stmts variadic body
  | .cond condition body more otherwise _ =>
    expr variadic condition ∧ stmts variadic body ∧ branches variadic more ∧
      alternative variadic otherwise
  | .whileLoop condition body _ => expr variadic condition ∧ stmts variadic body
  | .repeatLoop body condition _ => stmts variadic body ∧ expr variadic condition
  | .numericFor b start stop step body _ =>
    b.constant = false ∧ expr variadic start ∧ expr variadic stop ∧ increment variadic step ∧
      stmts variadic body
  | .genericFor bs iterators body _ =>
    bs ≠ [] ∧ (∀ b ∈ bs, b.constant = false) ∧ iterators ≠ [] ∧ exprs variadic iterators ∧
      stmts variadic body
  | .ret values _ => exprs variadic values
  | .exit _ => True
  | .goto _ _ => True
  | .label _ _ => True

/-- A `return` is the last statement of its block. -/
def stmts (variadic : Bool) : List Stmt → Prop
  | [] => True
  | s :: rest =>
    (s.isReturn = true → rest = []) ∧ stmt variadic s ∧ stmts variadic rest

end

-- The equations are derived once, here, and not by each lemma that first needs one.
section
attribute [local simp] expr.eq_1 exprs.eq_1 field.eq_1 fields.eq_1 function.eq_1 branch.eq_1
  branches.eq_1 alternative.eq_1 increment.eq_1 stmt.eq_1 stmts.eq_1
end

end Grammar

/-- A program of the grammar, whose numbers are written in a style. -/
def Grammatical (style : Style) (program : Block) : Prop := Grammar.stmts style true program

/-! ## Lines and numbers -/

namespace Unlined

mutual

/-- The expression with every line forgotten. -/
def expr : Expr → Expr
  | .literal value _ => .literal value 0
  | .str contents _ => .str contents 0
  | .unary op e _ => .unary op (expr e) 0
  | .binary op l r _ => .binary op (expr l) (expr r) 0
  | .name name _ => .name name 0
  | .vararg _ => .vararg 0
  | .paren e _ => .paren (expr e) 0
  | .call f args _ => .call (expr f) (exprs args) 0
  | .method e name args _ => .method (expr e) name (exprs args) 0
  | .table fs _ => .table (fields fs) 0
  | .index e k _ => .index (expr e) (expr k) 0
  | .function f => .function (function f)

def exprs : List Expr → List Expr
  | [] => []
  | e :: rest => expr e :: exprs rest

def field : Field → Field
  | .item e => .item (expr e)
  | .pair k e => .pair (expr k) (expr e)

def fields : List Field → List Field
  | [] => []
  | f :: rest => field f :: fields rest

def function : Function → Function
  | .mk name params variadic body _ _ => .mk name params variadic (stmts body) 0 0

def branch : Branch → Branch
  | .mk condition body => .mk (expr condition) (stmts body)

def branches : List Branch → List Branch
  | [] => []
  | b :: rest => branch b :: branches rest

def alternative : Option (List Stmt) → Option (List Stmt)
  | none => none
  | some body => some (stmts body)

def increment : Option Expr → Option Expr
  | none => none
  | some e => some (expr e)

def stmt : Stmt → Stmt
  | .expr e _ => .expr (expr e) 0
  | .assign targets values _ => .assign (exprs targets) (exprs values) 0
  | .locals bs values _ => .locals bs (exprs values) 0
  | .localFunction b f _ => .localFunction b (function f) 0
  | .function target f _ => .function (expr target) (function f) 0
  | .block body _ => .block (stmts body) 0
  | .cond condition body more otherwise _ =>
    .cond (expr condition) (stmts body) (branches more) (alternative otherwise) 0
  | .whileLoop condition body _ => .whileLoop (expr condition) (stmts body) 0
  | .repeatLoop body condition _ => .repeatLoop (stmts body) (expr condition) 0
  | .numericFor b start stop step body _ =>
    .numericFor b (expr start) (expr stop) (increment step) (stmts body) 0
  | .genericFor bs iterators body _ => .genericFor bs (exprs iterators) (stmts body) 0
  | .ret values _ => .ret (exprs values) 0
  | .exit _ => .exit 0
  | .goto label _ => .goto label 0
  | .label name _ => .label name 0

def stmts : List Stmt → List Stmt
  | [] => []
  | s :: rest => stmt s :: stmts rest

end

-- The equations are derived once, here, and not by each lemma that first needs one.
section
attribute [local simp] expr.eq_1 exprs.eq_1 field.eq_1 fields.eq_1 function.eq_1 branch.eq_1
  branches.eq_1 alternative.eq_1 increment.eq_1 stmt.eq_1 stmts.eq_1
end

end Unlined

namespace Numbering

/-- The binders with the numbers from `n` on. -/
def binders (n : Nat) : List Binder → List Binder
  | [] => []
  | b :: rest => { b with number := n } :: binders (n + 1) rest

mutual

/-- The expression with its binders numbered from `n` on, and the number after them. -/
def expr (n : Nat) : Expr → Expr × Nat
  | .literal value line => (.literal value line, n)
  | .str contents line => (.str contents line, n)
  | .unary op e line =>
    let e := expr n e
    (.unary op e.1 line, e.2)
  | .binary op l r line =>
    let l := expr n l
    let r := expr l.2 r
    (.binary op l.1 r.1 line, r.2)
  | .name name line => (.name name line, n)
  | .vararg line => (.vararg line, n)
  | .paren e line =>
    let e := expr n e
    (.paren e.1 line, e.2)
  | .call f args line =>
    let f := expr n f
    let args := exprs f.2 args
    (.call f.1 args.1 line, args.2)
  | .method e name args line =>
    let e := expr n e
    let args := exprs e.2 args
    (.method e.1 name args.1 line, args.2)
  | .table fs line =>
    let fs := fields n fs
    (.table fs.1 line, fs.2)
  | .index e k line =>
    let e := expr n e
    let k := expr e.2 k
    (.index e.1 k.1 line, k.2)
  | .function f =>
    let f := function n f
    (.function f.1, f.2)

def exprs (n : Nat) : List Expr → List Expr × Nat
  | [] => ([], n)
  | e :: rest =>
    let e := expr n e
    let rest := exprs e.2 rest
    (e.1 :: rest.1, rest.2)

def field (n : Nat) : Field → Field × Nat
  | .item e =>
    let e := expr n e
    (.item e.1, e.2)
  | .pair k e =>
    let k := expr n k
    let e := expr k.2 e
    (.pair k.1 e.1, e.2)

def fields (n : Nat) : List Field → List Field × Nat
  | [] => ([], n)
  | f :: rest =>
    let f := field n f
    let rest := fields f.2 rest
    (f.1 :: rest.1, rest.2)

def function (n : Nat) : Function → Function × Nat
  | .mk name params variadic body line endLine =>
    let body := stmts (n + params.length) body
    (.mk name (binders n params) variadic body.1 line endLine, body.2)

def branch (n : Nat) : Branch → Branch × Nat
  | .mk condition body =>
    let condition := expr n condition
    let body := stmts condition.2 body
    (.mk condition.1 body.1, body.2)

def branches (n : Nat) : List Branch → List Branch × Nat
  | [] => ([], n)
  | b :: rest =>
    let b := branch n b
    let rest := branches b.2 rest
    (b.1 :: rest.1, rest.2)

def alternative (n : Nat) : Option (List Stmt) → Option (List Stmt) × Nat
  | none => (none, n)
  | some body =>
    let body := stmts n body
    (some body.1, body.2)

def increment (n : Nat) : Option Expr → Option Expr × Nat
  | none => (none, n)
  | some e =>
    let e := expr n e
    (some e.1, e.2)

def stmt (n : Nat) : Stmt → Stmt × Nat
  | .expr e line =>
    let e := expr n e
    (.expr e.1 line, e.2)
  | .assign targets values line =>
    let targets := exprs n targets
    let values := exprs targets.2 values
    (.assign targets.1 values.1 line, values.2)
  | .locals bs values line =>
    let values := exprs (n + bs.length) values
    (.locals (binders n bs) values.1 line, values.2)
  | .localFunction b f line =>
    let f := function (n + 1) f
    (.localFunction { b with number := n } f.1 line, f.2)
  | .function target f line =>
    let f := function n f
    (.function target f.1 line, f.2)
  | .block body line =>
    let body := stmts n body
    (.block body.1 line, body.2)
  | .cond condition body more otherwise line =>
    let condition := expr n condition
    let body := stmts condition.2 body
    let more := branches body.2 more
    let otherwise := alternative more.2 otherwise
    (.cond condition.1 body.1 more.1 otherwise.1 line, otherwise.2)
  | .whileLoop condition body line =>
    let condition := expr n condition
    let body := stmts condition.2 body
    (.whileLoop condition.1 body.1 line, body.2)
  | .repeatLoop body condition line =>
    let body := stmts n body
    let condition := expr body.2 condition
    (.repeatLoop body.1 condition.1 line, condition.2)
  | .numericFor b start stop step body line =>
    let start := expr (n + 1) start
    let stop := expr start.2 stop
    let step := increment stop.2 step
    let body := stmts step.2 body
    (.numericFor { b with number := n } start.1 stop.1 step.1 body.1 line, body.2)
  | .genericFor bs iterators body line =>
    let iterators := exprs (n + bs.length) iterators
    let body := stmts iterators.2 body
    (.genericFor (binders n bs) iterators.1 body.1 line, body.2)
  | .ret values line =>
    let values := exprs n values
    (.ret values.1 line, values.2)
  | .exit line => (.exit line, n)
  | .goto label line => (.goto label line, n)
  | .label name line => (.label name line, n)

def stmts (n : Nat) : List Stmt → List Stmt × Nat
  | [] => ([], n)
  | s :: rest =>
    let s := stmt n s
    let rest := stmts s.2 rest
    (s.1 :: rest.1, rest.2)

end

-- The equations are derived once, here, and not by each lemma that first needs one.
section
attribute [local simp] expr.eq_1 exprs.eq_1 field.eq_1 fields.eq_1 function.eq_1 branch.eq_1
  branches.eq_1 alternative.eq_1 increment.eq_1 stmt.eq_1 stmts.eq_1
end

end Numbering

/-- The two programs are the same but for their lines, and the first numbers its binders in the
order of their declarations. -/
def Restores (restored program : Block) : Prop :=
  Unlined.stmts restored = Unlined.stmts (Numbering.stmts 0 program).1

/-! ## Syntax levels -/

/-- The operators of a level that stand in a row. -/
def Expr.chain (level : Nat) : Expr → Nat
  | .binary op l _ _ => if op.level = level then l.chain level + 1 else 0
  | _ => 0

/-- The calls, fields and indices that stand in a row. -/
def Expr.links : Expr → Nat
  | .call f _ _ => f.links + 1
  | .method e _ _ _ => e.links + 1
  | .index e _ _ => e.links + 1
  | _ => 0

namespace Nesting

variable (style : Style)

mutual

/-- An operand takes a level; an argument without parentheses is none. Each operator of a level
takes one more for its right operand than the operator before it, and so does each link of a row of
suffixes. -/
def expr : Expr → Nat
  | .literal _ _ => 1
  | .str _ _ => 1
  | .unary _ e _ => expr e + 1
  | .binary op l r _ =>
    match op with
    | .concat => max (expr l) (expr r)
    | .pow => max (expr l) (expr r + 1)
    | _ => max (expr l) (l.chain op.level + 1 + expr r)
  | .name _ _ => 1
  | .vararg _ => 1
  | .paren e _ => expr e + 1
  | .call f args _ =>
    max (expr f) (f.links + 2 + if style.isBare args then exprs args - 1 else exprs args)
  | .method e _ args _ =>
    max (expr e) (e.links + 2 + if style.isBare args then exprs args - 1 else exprs args)
  | .table fs _ => fields fs + 1
  | .index e k _ =>
    max (expr e)
      (e.links + 2 +
        match style.key? k with
        | some _ => 0
        | none => expr k)
  | .function f => function f + 1

def exprs : List Expr → Nat
  | [] => 0
  | e :: rest => max (expr e) (exprs rest)

def field : Field → Nat
  | .item e => expr e
  | .pair k e =>
    match style.key? k with
    | some _ => expr e
    | none => max (expr k) (expr e)

def fields : List Field → Nat
  | [] => 0
  | f :: rest => max (field f) (fields rest)

def function : Function → Nat
  | .mk _ _ _ body _ _ => stmts body

def branch : Branch → Nat
  | .mk condition body => max (expr condition) (stmts body)

def branches : List Branch → Nat
  | [] => 0
  | b :: rest => max (branch b) (branches rest)

def alternative : Option (List Stmt) → Nat
  | none => 0
  | some body => stmts body

def increment : Option Expr → Nat
  | none => 0
  | some e => expr e

/-- A statement takes a level, except `return`. -/
def stmt : Stmt → Nat
  | .expr e _ => expr e
  | .assign targets values _ => max (exprs targets) (exprs values + 1)
  | .locals _ values _ => exprs values + 1
  | .localFunction _ f _ => function f + 1
  | .function _ f _ => function f + 1
  | .block body _ => stmts body + 1
  | .cond condition body more otherwise _ =>
    max (max (expr condition) (stmts body)) (max (branches more) (alternative otherwise)) + 1
  | .whileLoop condition body _ => max (expr condition) (stmts body) + 1
  | .repeatLoop body condition _ => max (stmts body) (expr condition) + 1
  | .numericFor _ start stop step body _ =>
    max (max (expr start) (expr stop)) (max (increment step) (stmts body)) + 1
  | .genericFor _ iterators body _ => max (exprs iterators) (stmts body) + 1
  | .ret values _ => exprs values
  | .exit _ => 1
  | .goto _ _ => 1
  | .label _ _ => 1

def stmts : List Stmt → Nat
  | [] => 0
  | s :: rest => max (stmt s) (stmts rest)

end

-- The equations are derived once, here, and not by each lemma that first needs one.
section
attribute [local simp] expr.eq_1 exprs.eq_1 field.eq_1 fields.eq_1 function.eq_1 branch.eq_1
  branches.eq_1 alternative.eq_1 increment.eq_1 stmt.eq_1 stmts.eq_1
end

/-- The levels behind the link of a call. -/
def arguments (args : List Expr) : Nat :=
  if style.isBare args then exprs style args - 1 else exprs style args

end Nesting
end LuaMachine
