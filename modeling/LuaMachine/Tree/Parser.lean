import LuaMachine.Fault
import LuaMachine.Token.Lexer
import LuaMachine.Tree
/-! # From tokens to trees

A recursive descent over the list of tokens. The operators bind, from loosest to tightest: `or`;
`and`; comparisons; `|`; `~`; `&`; shifts; `..`; `+` and `-`; `*`, `/`, `//` and `%`; unary
operators; `^`. All associate to the left but `..` and `^`.

Statements, operands and links of a chain of operators or suffixes count as syntax levels, of
which there may be `maxLevels` at a time.

* `Parser.program`: the tree of a list of tokens.
* `parse`: the tree of a program text.
-/
set_option autoImplicit false

namespace LuaMachine
namespace Parser

/-! ## Complaints -/

/-- What can be wrong at a token. -/
inductive Complaint where
  | expected (what : String)
  | unclosed (closer opener : String) (line : Nat)
  | syntaxError
  | unexpectedSymbol
  | argumentsExpected
  | closeAttribute
  | unknownAttribute (name : String)
  | malformedNumber
  | varargOutside
deriving DecidableEq, Repr

def Complaint.message : Complaint → String
  | .expected what => what ++ " expected"
  | .unclosed closer opener line =>
    "'" ++ closer ++ "' expected (to close '" ++ opener ++ "' at line " ++ toString line ++ ")"
  | .syntaxError => "syntax error"
  | .unexpectedSymbol => "unexpected symbol"
  | .argumentsExpected => "function arguments expected"
  | .closeAttribute => "attribute 'close' is not supported"
  | .unknownAttribute name => "unknown attribute '" ++ name ++ "'"
  | .malformedNumber => "malformed number"
  | .varargOutside => "cannot use '...' outside a vararg function"

/-- A complaint names the token it is about. -/
def Complaint.near (c : Complaint) (t : Token) : CompileError :=
  let message :=
    match t.kind with
    | .endOfText => c.message ++ " near <eof>"
    | .string => c.message ++ " near '\"" ++ t.text ++ "\"'"
    | .error => c.message
    | _ => c.message ++ " near '" ++ t.text ++ "'"
  ⟨message, some t.line⟩

def tooDeep (line : Nat) : CompileError := ⟨"chunk has too many syntax levels", some line⟩

/-- The greatest number of syntax levels. -/
def maxLevels : Nat := 200

/-! ## Moving over the tokens -/

/-- The tokens from the current one on, and the number of the next binder. -/
structure State where
  tokens : List Token
  binders : Nat

abbrev Parse := EStateM CompileError State

def endToken : Token := ⟨.endOfText, "", 1⟩

def current : Parse Token := do
  return (← get).tokens.headD endToken

def currentKind : Parse TokenKind := do
  return (← current).kind

def complainAt {α : Type} (c : Complaint) (t : Token) : Parse α := throw (c.near t)

def complain {α : Type} (c : Complaint) : Parse α := do
  complainAt c (← current)

/-- The first token may be one that no program has. -/
def checkError : Parse Unit := do
  let t ← current
  if t.kind = .error then throw ⟨t.text, some t.line⟩

/-- Steps over the current token and gives it. -/
def advance : Parse Token := do
  let t ← current
  modify fun s => { s with tokens := s.tokens.tail }
  checkError
  return t

def check (k : TokenKind) : Parse Bool := do
  return (← currentKind) = k

def checkSymbol (s : Symbol) : Parse Bool := check (.symbol s)

def accept (k : TokenKind) : Parse Bool := do
  if ← check k then
    let _ ← advance
    return true
  else return false

def acceptSymbol (s : Symbol) : Parse Bool := accept (.symbol s)

def acceptKeyword (k : Keyword) : Parse Bool := accept (.keyword k)

def consume (k : TokenKind) (c : Complaint) : Parse Token := do
  if ← check k then advance else complain c

def consumeSymbol (s : Symbol) : Parse Unit := do
  let _ ← consume (.symbol s) (.expected ("'" ++ s.spelling ++ "'"))

def consumeKeyword (k : Keyword) : Parse Unit := do
  let _ ← consume (.keyword k) (.expected ("'" ++ k.spelling ++ "'"))

/-- The word that ends a construct that began in the given line. -/
def closing (k : Keyword) (opener : String) (line : Nat) : Parse Token :=
  consume (.keyword k) (.unclosed k.spelling opener line)

def identifier : Parse Token := consume .identifier (.expected "<name>")

def binder (name : String) (constant : Bool) : Parse Binder := do
  let s ← get
  set { s with binders := s.binders + 1 }
  return ⟨name, s.binders, constant⟩

/-- One syntax level more. -/
def enter (depth : Nat) : Parse Nat := do
  if maxLevels ≤ depth then throw (tooDeep (← current).line)
  return depth + 1

/-- The current token ends a block. -/
def blockEnds : Parse Bool := do
  match ← currentKind with
  | .keyword .kwElse | .keyword .kwElseif | .keyword .kwEnd | .keyword .kwUntil => return true
  | .endOfText => return true
  | _ => return false

/-! ## Operators -/

def unaryOp? : TokenKind → Option UnaryOp
  | .symbol .minus => some .negate
  | .keyword .kwNot => some .not
  | .symbol .tilde => some .complement
  | .symbol .hash => some .length
  | _ => none

/-- The levels of the binary operators that associate to the left or right at one level. -/
def levels : Nat := 10

def concatLevel : Nat := 7

/-- The binary operator that a token is at a level; `^` is none of them. -/
def binaryOp? : Nat → TokenKind → Option BinaryOp
  | 0, .keyword .kwOr => some .or
  | 1, .keyword .kwAnd => some .and
  | 2, .symbol .equalEqual => some .eq
  | 2, .symbol .tildeEqual => some .ne
  | 2, .symbol .greater => some .gt
  | 2, .symbol .greaterEqual => some .ge
  | 2, .symbol .less => some .lt
  | 2, .symbol .lessEqual => some .le
  | 3, .symbol .pipe => some .bor
  | 4, .symbol .tilde => some .bxor
  | 5, .symbol .ampersand => some .band
  | 6, .symbol .lessLess => some .shl
  | 6, .symbol .greaterGreater => some .shr
  | 7, .symbol .dotDot => some .concat
  | 8, .symbol .plus => some .add
  | 8, .symbol .minus => some .sub
  | 9, .symbol .star => some .mul
  | 9, .symbol .slash => some .div
  | 9, .symbol .slashSlash => some .idiv
  | 9, .symbol .percent => some .mod
  | _, _ => none

/-! ## Expressions and statements

Each function takes the number of calls it may nest, which the number of tokens bounds; the syntax
levels entered so far; and whether `...` can be used. -/

def exhausted {α : Type} : Parse α := do throw (tooDeep (← current).line)

/-- The attribute of a local variable: nothing, or `const` in angle brackets. -/
def constantMark : Parse Bool := do
  if ← acceptSymbol .less then
    let t ← identifier
    if t.text = "const" then
      consumeSymbol .greater
      return true
    else if t.text = "close" then complainAt .closeAttribute t
    else complainAt (.unknownAttribute t.text) t
  else return false

mutual

def binary : Nat → Nat → Nat → Bool → Parse Expr
  | 0, _, _, _ => exhausted
  | fuel + 1, level, depth, variadic => do
    if levels ≤ level then unary fuel depth variadic
    else
      let left ← binary fuel (level + 1) depth variadic
      if level = concatLevel then
        match binaryOp? level (← currentKind) with
        | some op =>
          let t ← advance
          let right ← binary fuel level depth variadic
          return .binary op left right t.line
        | none => return left
      else binaryRest fuel level depth variadic left

/-- More operators of one level; each adds a syntax level to what follows. -/
def binaryRest : Nat → Nat → Nat → Bool → Expr → Parse Expr
  | 0, _, _, _, _ => exhausted
  | fuel + 1, level, depth, variadic, left => do
    match binaryOp? level (← currentKind) with
    | some op =>
      let t ← advance
      let depth ← enter depth
      let right ← binary fuel (level + 1) depth variadic
      binaryRest fuel level depth variadic (.binary op left right t.line)
    | none => return left

def unary : Nat → Nat → Bool → Parse Expr
  | 0, _, _ => exhausted
  | fuel + 1, depth, variadic => do
    let depth ← enter depth
    match unaryOp? (← currentKind) with
    | some op =>
      let t ← advance
      let operand ← unary fuel depth variadic
      return .unary op operand t.line
    | none =>
      let base ← simple fuel depth variadic
      if ← checkSymbol .caret then
        let t ← advance
        let exponent ← unary fuel depth variadic
        return .binary .pow base exponent t.line
      else return base

def simple : Nat → Nat → Bool → Parse Expr
  | 0, _, _ => exhausted
  | fuel + 1, depth, variadic => do
    let t ← current
    match t.kind with
    | .keyword .kwFalse =>
      let _ ← advance
      return .literal (.bool false) t.line
    | .keyword .kwTrue =>
      let _ ← advance
      return .literal (.bool true) t.line
    | .keyword .kwNil =>
      let _ ← advance
      return .literal .nil t.line
    | .number =>
      let _ ← advance
      match Numeral.read t.text.toList with
      | some n => return .literal (.number n) t.line
      | none => complainAt .malformedNumber t
    | .string =>
      let _ ← advance
      return .str t.text t.line
    | .symbol .dotDotDot =>
      let _ ← advance
      if variadic then return .vararg t.line else complainAt .varargOutside t
    | .symbol .leftBrace => table fuel depth variadic
    | .keyword .kwFunction =>
      let _ ← advance
      return .function (← functionBody fuel depth "anonymous" false t.line)
    | _ => suffixed fuel depth variadic

def suffixed : Nat → Nat → Bool → Parse Expr
  | 0, _, _ => exhausted
  | fuel + 1, depth, variadic => do
    let t ← current
    match t.kind with
    | .identifier =>
      let _ ← advance
      suffixes fuel depth variadic (.name t.text t.line)
    | .symbol .leftParen =>
      let _ ← advance
      let inner ← binary fuel 0 depth variadic
      consumeSymbol .rightParen
      suffixes fuel depth variadic (.paren inner t.line)
    | _ => complain .unexpectedSymbol

/-- Calls, fields and indices behind an expression; each adds a syntax level to what follows. -/
def suffixes : Nat → Nat → Bool → Expr → Parse Expr
  | 0, _, _, _ => exhausted
  | fuel + 1, depth, variadic, e => do
    let t ← current
    match t.kind with
    | .symbol .leftParen | .string | .symbol .leftBrace =>
      let depth ← enter depth
      let args ← arguments fuel depth variadic
      suffixes fuel depth variadic (.call e args t.line)
    | .symbol .colon =>
      let depth ← enter depth
      let _ ← advance
      let name ← identifier
      match ← currentKind with
      | .symbol .leftParen | .string | .symbol .leftBrace =>
        let args ← arguments fuel depth variadic
        suffixes fuel depth variadic (.method e name.text args t.line)
      | _ => complain .argumentsExpected
    | .symbol .leftBracket =>
      let depth ← enter depth
      let _ ← advance
      let key ← binary fuel 0 depth variadic
      consumeSymbol .rightBracket
      suffixes fuel depth variadic (.index e key t.line)
    | .symbol .dot =>
      let depth ← enter depth
      let _ ← advance
      let name ← identifier
      suffixes fuel depth variadic (.index e (.str name.text t.line) t.line)
    | _ => return e

/-- The arguments of a call: a text, a table, or a list in parentheses. -/
def arguments : Nat → Nat → Bool → Parse (List Expr)
  | 0, _, _ => exhausted
  | fuel + 1, depth, variadic => do
    let t ← current
    match t.kind with
    | .string =>
      let _ ← advance
      return [.str t.text t.line]
    | .symbol .leftBrace => return [← table fuel depth variadic]
    | _ =>
      let _ ← consume (.symbol .leftParen) .argumentsExpected
      if ← acceptSymbol .rightParen then return []
      else
        let args ← expressions fuel depth variadic
        consumeSymbol .rightParen
        return args

def expressions : Nat → Nat → Bool → Parse (List Expr)
  | 0, _, _ => exhausted
  | fuel + 1, depth, variadic => do
    let e ← binary fuel 0 depth variadic
    if ← acceptSymbol .comma then return e :: (← expressions fuel depth variadic)
    else return [e]

def table : Nat → Nat → Bool → Parse Expr
  | 0, _, _ => exhausted
  | fuel + 1, depth, variadic => do
    let t ← current
    consumeSymbol .leftBrace
    let entries ← fields fuel depth variadic []
    let _ ← consume (.symbol .rightBrace)
      (.unclosed Symbol.rightBrace.spelling Symbol.leftBrace.spelling t.line)
    return .table entries t.line

/-- The entries of a table, with those that are read already, the last one first. -/
def fields : Nat → Nat → Bool → List Field → Parse (List Field)
  | 0, _, _, _ => exhausted
  | fuel + 1, depth, variadic, seen => do
    if ← checkSymbol .rightBrace then return seen.reverse
    let entry ← field fuel depth variadic
    if ← acceptSymbol .comma then fields fuel depth variadic (entry :: seen)
    else if ← acceptSymbol .semicolon then fields fuel depth variadic (entry :: seen)
    else return (entry :: seen).reverse

def field : Nat → Nat → Bool → Parse Field
  | 0, _, _ => exhausted
  | fuel + 1, depth, variadic => do
    match (← get).tokens with
    | ⟨.symbol .leftBracket, _, _⟩ :: _ =>
      let _ ← advance
      let key ← binary fuel 0 depth variadic
      consumeSymbol .rightBracket
      consumeSymbol .equal
      return .pair key (← binary fuel 0 depth variadic)
    | ⟨.identifier, name, line⟩ :: ⟨.symbol .equal, _, _⟩ :: _ =>
      let _ ← advance
      let _ ← advance
      return .pair (.str name line) (← binary fuel 0 depth variadic)
    | _ => return .item (← binary fuel 0 depth variadic)

/-- The parameters and the body of a function; a method has a first parameter `self`. -/
def functionBody : Nat → Nat → String → Bool → Nat → Parse Function
  | 0, _, _, _, _ => exhausted
  | fuel + 1, depth, name, method, line => do
    consumeSymbol .leftParen
    let self ← if method then pure [← binder "self" false] else pure []
    let (params, variadic) ←
      if ← checkSymbol .rightParen then pure ([], false) else parameters fuel
    consumeSymbol .rightParen
    let body ← block fuel depth variadic
    let last ← closing .kwEnd "function" line
    return .mk name (self ++ params) variadic body line last.line

/-- Names, or `...` which comes last. -/
def parameters : Nat → Parse (List Binder × Bool)
  | 0 => exhausted
  | fuel + 1 => do
    if ← acceptSymbol .dotDotDot then return ([], true)
    let t ← identifier
    let b ← binder t.text false
    if ← acceptSymbol .comma then
      let (more, variadic) ← parameters fuel
      return (b :: more, variadic)
    else return ([b], false)

/-- Statements up to the end of a block, or up to a `return`, which comes last. -/
def block : Nat → Nat → Bool → Parse (List Stmt)
  | 0, _, _ => exhausted
  | fuel + 1, depth, variadic => do
    if ← blockEnds then return []
    if ← check (.keyword .kwReturn) then return [← returnStatement fuel depth variadic]
    match ← statement fuel depth variadic with
    | some s => return s :: (← block fuel depth variadic)
    | none => block fuel depth variadic

def returnStatement : Nat → Nat → Bool → Parse Stmt
  | 0, _, _ => exhausted
  | fuel + 1, depth, variadic => do
    let t ← advance
    let bare ← blockEnds
    let values ←
      if bare then pure []
      else if ← checkSymbol .semicolon then pure []
      else expressions fuel depth variadic
    let _ ← acceptSymbol .semicolon
    return .ret values t.line

/-- One statement; a semicolon is none. -/
def statement : Nat → Nat → Bool → Parse (Option Stmt)
  | 0, _, _ => exhausted
  | fuel + 1, depth, variadic => do
    let depth ← enter depth
    let t ← current
    let line := t.line
    match t.kind with
    | .symbol .semicolon =>
      let _ ← advance
      return none
    | .keyword .kwIf =>
      let _ ← advance
      let condition ← binary fuel 0 depth variadic
      consumeKeyword .kwThen
      let body ← block fuel depth variadic
      let (branches, otherwise) ← elseParts fuel depth variadic
      let _ ← closing .kwEnd "if" line
      return some (.cond condition body branches otherwise line)
    | .keyword .kwWhile =>
      let _ ← advance
      let condition ← binary fuel 0 depth variadic
      consumeKeyword .kwDo
      let body ← block fuel depth variadic
      let _ ← closing .kwEnd "while" line
      return some (.whileLoop condition body line)
    | .keyword .kwDo =>
      let _ ← advance
      let body ← block fuel depth variadic
      let _ ← closing .kwEnd "do" line
      return some (.block body line)
    | .keyword .kwFor =>
      let _ ← advance
      return some (← forStatement fuel depth variadic line)
    | .keyword .kwRepeat =>
      let _ ← advance
      let body ← block fuel depth variadic
      let _ ← closing .kwUntil "repeat" line
      let condition ← binary fuel 0 depth variadic
      return some (.repeatLoop body condition line)
    | .keyword .kwFunction =>
      let _ ← advance
      let name ← identifier
      let (target, full, method) ← functionName fuel line (.name name.text line) name.text
      let f ← functionBody fuel depth full method line
      return some (.function target f line)
    | .keyword .kwLocal =>
      let _ ← advance
      if ← acceptKeyword .kwFunction then
        let name ← identifier
        let b ← binder name.text false
        let f ← functionBody fuel depth name.text false line
        return some (.localFunction b f line)
      else
        let names ← attributed fuel
        let values ← if ← acceptSymbol .equal then expressions fuel depth variadic else pure []
        return some (.locals names values line)
    | .symbol .colonColon =>
      let _ ← advance
      let name ← identifier
      consumeSymbol .colonColon
      return some (.label name.text line)
    | .keyword .kwBreak =>
      let _ ← advance
      return some (.exit line)
    | .keyword .kwGoto =>
      let _ ← advance
      let name ← identifier
      return some (.goto name.text line)
    | _ =>
      let first ← suffixed fuel depth variadic
      let assigns := (← checkSymbol .equal) || (← checkSymbol .comma)
      if assigns then
        let targets ← targetsAfter fuel depth variadic first
        if !targets.all Expr.isTarget then complain .syntaxError
        consumeSymbol .equal
        let values ← expressions fuel depth variadic
        return some (.assign targets values line)
      else if first.isCall then return some (.expr first line)
      else complain .syntaxError

/-- The targets of an assignment, the first of which is already read. -/
def targetsAfter : Nat → Nat → Bool → Expr → Parse (List Expr)
  | 0, _, _, _ => exhausted
  | fuel + 1, depth, variadic, first => do
    if ← acceptSymbol .comma then
      let next ← suffixed fuel depth variadic
      return first :: (← targetsAfter fuel depth variadic next)
    else return [first]

/-- Further conditions of an `if`, and what is done if none holds. -/
def elseParts : Nat → Nat → Bool → Parse (List Branch × Option (List Stmt))
  | 0, _, _ => exhausted
  | fuel + 1, depth, variadic => do
    if ← acceptKeyword .kwElseif then
      let condition ← binary fuel 0 depth variadic
      consumeKeyword .kwThen
      let body ← block fuel depth variadic
      let (branches, otherwise) ← elseParts fuel depth variadic
      return (.mk condition body :: branches, otherwise)
    else if ← acceptKeyword .kwElse then
      let body ← block fuel depth variadic
      return ([], some body)
    else return ([], none)

def forStatement : Nat → Nat → Bool → Nat → Parse Stmt
  | 0, _, _, _ => exhausted
  | fuel + 1, depth, variadic, line => do
    let name ← identifier
    let first ← binder name.text false
    if ← acceptSymbol .equal then
      let start ← binary fuel 0 depth variadic
      consumeSymbol .comma
      let stop ← binary fuel 0 depth variadic
      let step ←
        if ← acceptSymbol .comma then
          let e ← binary fuel 0 depth variadic
          pure (some e)
        else pure none
      consumeKeyword .kwDo
      let body ← block fuel depth variadic
      let _ ← closing .kwEnd "for" line
      return .numericFor first start stop step body line
    else
      let more ← furtherNames fuel
      let _ ← consume (.keyword .kwIn) (.expected "'=' or 'in'")
      let iterators ← expressions fuel depth variadic
      consumeKeyword .kwDo
      let body ← block fuel depth variadic
      let _ ← closing .kwEnd "for" line
      return .genericFor (first :: more) iterators body line

/-- More variables of a loop, each behind a comma. -/
def furtherNames : Nat → Parse (List Binder)
  | 0 => exhausted
  | fuel + 1 => do
    if ← acceptSymbol .comma then
      let t ← identifier
      let b ← binder t.text false
      return b :: (← furtherNames fuel)
    else return []

/-- The variables of a `local` statement with their attributes. -/
def attributed : Nat → Parse (List Binder)
  | 0 => exhausted
  | fuel + 1 => do
    let t ← identifier
    let constant ← constantMark
    let b ← binder t.text constant
    if ← acceptSymbol .comma then return b :: (← attributed fuel)
    else return [b]

/-- The fields behind the first name of a function statement. A colon before the last one makes
the function a method. -/
def functionName : Nat → Nat → Expr → String → Parse (Expr × String × Bool)
  | 0, _, _, _ => exhausted
  | fuel + 1, line, target, full => do
    if ← acceptSymbol .dot then
      let t ← identifier
      functionName fuel line (.index target (.str t.text t.line) line) (full ++ "." ++ t.text)
    else if ← acceptSymbol .colon then
      let t ← identifier
      return (.index target (.str t.text t.line) line, full ++ ":" ++ t.text, true)
    else return (target, full, false)

end

/-- Calls that nest while no token is stepped over: fewer than this. -/
def callsPerToken : Nat := 32

/-- A whole program, which may use `...`. -/
def program (tokens : List Token) : Except CompileError Block :=
  let fuel := callsPerToken * (tokens.length + 1)
  let parser : Parse Block := do
    checkError
    let body ← block fuel 0 true
    if !(← check .endOfText) then complain (.expected "'<eof>'")
    return body
  match parser.run ⟨tokens, 0⟩ with
  | .ok body _ => .ok body
  | .error e _ => .error e

end Parser

/-- The tree of a program text. -/
def parse (text : String) : Except CompileError Block := Parser.program (tokens text)

end LuaMachine
