import LuaMachine.Token.Lexer
import LuaMachine.Tree
/-! # Trees as words

How a tree is written: as a list of words, which a text may spread over lines as it likes.
Statements are separated by semicolons, and entries of lists by commas. Where the language has two
ways to write the same tree, a style says which one is taken.

* `Word`, `Spells`: words, and the tokens that spell them.
* `Style`: the ways to write that are left open.
* `Style.expr`, `Style.stmts`: the words of an expression and of a list of statements.
-/
set_option autoImplicit false

namespace LuaMachine

/-! ## Words -/

inductive Word where
  | symbol (s : Symbol)
  | keyword (k : Keyword)
  | name (s : String)
  | text (s : String)
  | numeral (s : String)

namespace Word

def kind : Word → TokenKind
  | .symbol s => .symbol s
  | .keyword k => .keyword k
  | .name _ => .identifier
  | .text _ => .string
  | .numeral _ => .number

@[simp] theorem kind_symbol (s : Symbol) : (symbol s).kind = .symbol s := rfl

@[simp] theorem kind_keyword (k : Keyword) : (keyword k).kind = .keyword k := rfl

@[simp] theorem kind_name (s : String) : (name s).kind = .identifier := rfl

@[simp] theorem kind_text (s : String) : (text s).kind = .string := rfl

@[simp] theorem kind_numeral (s : String) : (numeral s).kind = .number := rfl

def spelling : Word → String
  | .symbol s => s.spelling
  | .keyword k => k.spelling
  | .name s => s
  | .text s => s
  | .numeral s => s

/-- The word as a token in a line. -/
def token (w : Word) (line : Nat) : Token := ⟨w.kind, w.spelling, line⟩

def unary : UnaryOp → Word
  | .negate => .symbol .minus
  | .not => .keyword .kwNot
  | .length => .symbol .hash
  | .complement => .symbol .tilde

def binary : BinaryOp → Word
  | .or => .keyword .kwOr
  | .and => .keyword .kwAnd
  | .eq => .symbol .equalEqual
  | .ne => .symbol .tildeEqual
  | .gt => .symbol .greater
  | .ge => .symbol .greaterEqual
  | .lt => .symbol .less
  | .le => .symbol .lessEqual
  | .bor => .symbol .pipe
  | .bxor => .symbol .tilde
  | .band => .symbol .ampersand
  | .shl => .symbol .lessLess
  | .shr => .symbol .greaterGreater
  | .concat => .symbol .dotDot
  | .add => .symbol .plus
  | .sub => .symbol .minus
  | .mul => .symbol .star
  | .div => .symbol .slash
  | .idiv => .symbol .slashSlash
  | .mod => .symbol .percent
  | .pow => .symbol .caret

end Word

/-- The tokens are these words, each in some line, and the end of the text. -/
inductive Spells : List Token → List Word → Prop where
  | stop (text : String) (line : Nat) : Spells [⟨.endOfText, text, line⟩] []
  | word (w : Word) (line : Nat) {ts : List Token} {ws : List Word} (rest : Spells ts ws) :
    Spells (w.token line :: ts) (w :: ws)

/-! ## Names of functions -/

/-- The name of a function that is declared for a variable or a field: `a.b.c`. -/
def Expr.dotted : Expr → String
  | .index object (.str key _) _ => object.dotted ++ "." ++ key
  | .name n _ => n
  | _ => ""

/-- The name of a method that is declared for a field: `a.b:c`. -/
def Expr.methodName? : Expr → Option String
  | .index object (.str key _) _ => some (object.dotted ++ ":" ++ key)
  | _ => none

def Function.name : Function → String
  | .mk name _ _ _ _ _ => name

/-- A function statement declares a method if its function has the name of one. -/
def Function.isMethodOf (f : Function) (target : Expr) : Bool :=
  target.methodName? = some f.name

/-! ## Trees -/

/-- How trees are written where there is a choice. -/
structure Style where
  /-- How a number is written. -/
  numeral : Number → String
  /-- The keys that are written as names and not in brackets. -/
  named : String → Bool
  /-- A text or a table that is the only argument of a call stands without parentheses. -/
  bare : Bool

namespace Style

variable (style : Style)

def literal : Literal → Word
  | .nil => .keyword .kwNil
  | .bool true => .keyword .kwTrue
  | .bool false => .keyword .kwFalse
  | .number n => .numeral (style.numeral n)

/-- The key as a name, if it is written so. -/
def key? : Expr → Option String
  | .str key _ => if style.named key then some key else none
  | _ => none

def isBare : List Expr → Bool
  | [.str _ _] => style.bare
  | [.table _ _] => style.bare
  | _ => false

/-- What stands behind an entry of a list: a separator and the words of the rest, if there are
more entries. -/
def behind {α : Type} (separator : Symbol) (rest : List α) (ws : List Word) : List Word :=
  match rest with
  | [] => []
  | _ :: _ => .symbol separator :: ws

/-- Names separated by commas. -/
def names : List Binder → List Word
  | [] => []
  | b :: rest => .name b.name :: behind .comma rest (names rest)

/-- The name of a local variable and its attribute. -/
def attributed (b : Binder) : List Word :=
  .name b.name ::
    if b.constant then [.symbol .less, .name "const", .symbol .greater] else []

def locals : List Binder → List Word
  | [] => []
  | b :: rest => attributed b ++ behind .comma rest (locals rest)

def parameters : List Binder → Bool → List Word
  | [], false => []
  | [], true => [.symbol .dotDotDot]
  | [b], false => [.name b.name]
  | b :: rest, variadic => .name b.name :: .symbol .comma :: parameters rest variadic

/-- The variable or field that a function is declared for. -/
def path : Expr → List Word
  | .index object (.str key _) _ => path object ++ [.symbol .dot, .name key]
  | .name name _ => [.name name]
  | _ => []

def methodPath : Expr → List Word
  | .index object (.str key _) _ => path object ++ [.symbol .colon, .name key]
  | _ => []

mutual

def expr : Expr → List Word
  | .literal value _ => [style.literal value]
  | .str contents _ => [.text contents]
  | .unary op e _ => .unary op :: expr e
  | .binary op l r _ => expr l ++ .binary op :: expr r
  | .name name _ => [.name name]
  | .vararg _ => [.symbol .dotDotDot]
  | .paren e _ => .symbol .leftParen :: expr e ++ [.symbol .rightParen]
  | .call f args _ =>
    expr f ++
      if style.isBare args then exprs args
      else .symbol .leftParen :: exprs args ++ [.symbol .rightParen]
  | .method e name args _ =>
    expr e ++ .symbol .colon :: .name name ::
      if style.isBare args then exprs args
      else .symbol .leftParen :: exprs args ++ [.symbol .rightParen]
  | .table fs _ => .symbol .leftBrace :: fields fs ++ [.symbol .rightBrace]
  | .index e k _ =>
    expr e ++
      match style.key? k with
      | some name => [.symbol .dot, .name name]
      | none => .symbol .leftBracket :: expr k ++ [.symbol .rightBracket]
  | .function f => .keyword .kwFunction :: function false f

/-- Expressions separated by commas. -/
def exprs : List Expr → List Word
  | [] => []
  | e :: rest => expr e ++ behind .comma rest (exprs rest)

def field : Field → List Word
  | .item e => expr e
  | .pair k e =>
    (match style.key? k with
    | some name => [.name name]
    | none => .symbol .leftBracket :: expr k ++ [.symbol .rightBracket]) ++
      .symbol .equal :: expr e

/-- Entries of a table separated by commas. -/
def fields : List Field → List Word
  | [] => []
  | f :: rest => field f ++ behind .comma rest (fields rest)

/-- The first parameter of a method is not written. -/
def function (method : Bool) : Function → List Word
  | .mk _ params variadic body _ _ =>
    .symbol .leftParen :: parameters (if method then params.tail else params) variadic ++
      .symbol .rightParen :: stmts body ++ [.keyword .kwEnd]

def branch : Branch → List Word
  | .mk condition body =>
    .keyword .kwElseif :: expr condition ++ .keyword .kwThen :: stmts body

def branches : List Branch → List Word
  | [] => []
  | b :: rest => branch b ++ branches rest

/-- What is done if no condition holds. -/
def alternative : Option (List Stmt) → List Word
  | none => []
  | some body => .keyword .kwElse :: stmts body

/-- The step of a loop. -/
def increment : Option Expr → List Word
  | none => []
  | some e => .symbol .comma :: expr e

def stmt : Stmt → List Word
  | .expr e _ => expr e
  | .assign targets values _ => exprs targets ++ .symbol .equal :: exprs values
  | .locals bs values _ =>
    .keyword .kwLocal :: locals bs ++
      match values with
      | [] => []
      | _ :: _ => .symbol .equal :: exprs values
  | .localFunction b f _ =>
    .keyword .kwLocal :: .keyword .kwFunction :: .name b.name :: function false f
  | .function target f _ =>
    .keyword .kwFunction ::
      (if f.isMethodOf target then methodPath target else path target) ++
        function (f.isMethodOf target) f
  | .block body _ => .keyword .kwDo :: stmts body ++ [.keyword .kwEnd]
  | .cond condition body more otherwise _ =>
    .keyword .kwIf :: expr condition ++ .keyword .kwThen :: stmts body ++ branches more ++
      alternative otherwise ++ [.keyword .kwEnd]
  | .whileLoop condition body _ =>
    .keyword .kwWhile :: expr condition ++ .keyword .kwDo :: stmts body ++ [.keyword .kwEnd]
  | .repeatLoop body condition _ =>
    .keyword .kwRepeat :: stmts body ++ .keyword .kwUntil :: expr condition
  | .numericFor b start stop step body _ =>
    .keyword .kwFor :: .name b.name :: .symbol .equal :: expr start ++ .symbol .comma ::
      expr stop ++ increment step ++ .keyword .kwDo :: stmts body ++ [.keyword .kwEnd]
  | .genericFor bs iterators body _ =>
    .keyword .kwFor :: names bs ++ .keyword .kwIn :: exprs iterators ++
      .keyword .kwDo :: stmts body ++ [.keyword .kwEnd]
  | .ret values _ => .keyword .kwReturn :: exprs values
  | .exit _ => [.keyword .kwBreak]
  | .goto label _ => [.keyword .kwGoto, .name label]
  | .label name _ => [.symbol .colonColon, .name name, .symbol .colonColon]

/-- Statements separated by semicolons. -/
def stmts : List Stmt → List Word
  | [] => []
  | s :: rest => stmt s ++ behind .semicolon rest (stmts rest)

end

-- The equations are derived once, here, and not by each lemma that first needs one.
section
attribute [local simp] expr.eq_1 exprs.eq_1 field.eq_1 fields.eq_1 function.eq_1 branch.eq_1
  branches.eq_1 alternative.eq_1 increment.eq_1 stmt.eq_1 stmts.eq_1
end

/-- The arguments of a call. -/
def arguments (args : List Expr) : List Word :=
  if style.isBare args then style.exprs args
  else .symbol .leftParen :: style.exprs args ++ [.symbol .rightParen]

end Style
end LuaMachine
