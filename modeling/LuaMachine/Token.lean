/-! # Tokens

The words of a program: symbols, keywords, names, numerals and texts, each with the line where it
begins. A list of tokens ends with the end of the text or with an error.

* `Symbol.spelling`, `Keyword.spelling`: how the fixed tokens are written.
* `TokenKind.name`: what a token is called in a listing.
-/
set_option autoImplicit false

namespace LuaMachine

inductive Symbol where
  | leftParen | rightParen | leftBrace | rightBrace | leftBracket | rightBracket | comma
  | dot | semicolon | colon | plus | minus | star | slash
  | percent | caret | hash | ampersand | pipe | equal | equalEqual
  | greater | greaterEqual | greaterGreater | less | lessEqual | lessLess | tilde
  | tildeEqual | slashSlash | colonColon | dotDot | dotDotDot
deriving DecidableEq, Repr

def Symbol.spelling : Symbol → String
  | .leftParen => "("
  | .rightParen => ")"
  | .leftBrace => "\x7b"
  | .rightBrace => "\x7d"
  | .leftBracket => "["
  | .rightBracket => "]"
  | .comma => ","
  | .dot => "."
  | .semicolon => ";"
  | .colon => ":"
  | .plus => "+"
  | .minus => "-"
  | .star => "*"
  | .slash => "/"
  | .percent => "%"
  | .caret => "^"
  | .hash => "#"
  | .ampersand => "&"
  | .pipe => "|"
  | .equal => "="
  | .equalEqual => "=="
  | .greater => ">"
  | .greaterEqual => ">="
  | .greaterGreater => ">>"
  | .less => "<"
  | .lessEqual => "<="
  | .lessLess => "<<"
  | .tilde => "~"
  | .tildeEqual => "~="
  | .slashSlash => "//"
  | .colonColon => "::"
  | .dotDot => ".."
  | .dotDotDot => "..."

inductive Keyword where
  | kwAnd | kwBreak | kwDo | kwElse | kwElseif | kwEnd | kwFalse
  | kwFor | kwFunction | kwGoto | kwIf | kwIn | kwLocal | kwNil
  | kwNot | kwOr | kwRepeat | kwReturn | kwThen | kwTrue | kwUntil
  | kwWhile
deriving DecidableEq, Repr

def Keyword.spelling : Keyword → String
  | .kwAnd => "and"
  | .kwBreak => "break"
  | .kwDo => "do"
  | .kwElse => "else"
  | .kwElseif => "elseif"
  | .kwEnd => "end"
  | .kwFalse => "false"
  | .kwFor => "for"
  | .kwFunction => "function"
  | .kwGoto => "goto"
  | .kwIf => "if"
  | .kwIn => "in"
  | .kwLocal => "local"
  | .kwNil => "nil"
  | .kwNot => "not"
  | .kwOr => "or"
  | .kwRepeat => "repeat"
  | .kwReturn => "return"
  | .kwThen => "then"
  | .kwTrue => "true"
  | .kwUntil => "until"
  | .kwWhile => "while"

def Keyword.all : List Keyword :=
  [.kwAnd, .kwBreak, .kwDo, .kwElse, .kwElseif, .kwEnd,
   .kwFalse, .kwFor, .kwFunction, .kwGoto, .kwIf, .kwIn,
   .kwLocal, .kwNil, .kwNot, .kwOr, .kwRepeat, .kwReturn,
   .kwThen, .kwTrue, .kwUntil, .kwWhile]

/-- The keyword that is written like this, if there is one. -/
def Keyword.ofSpelling? (s : String) : Option Keyword :=
  Keyword.all.find? fun k => k.spelling == s

inductive TokenKind where
  | symbol (s : Symbol)
  | keyword (k : Keyword)
  | identifier
  | string
  | number
  | endOfText
  | error
deriving DecidableEq, Repr

def TokenKind.name : TokenKind → String
  | .symbol s => "'" ++ s.spelling ++ "'"
  | .keyword k => "'" ++ k.spelling ++ "'"
  | .identifier => "<name>"
  | .string => "<string>"
  | .number => "<number>"
  | .endOfText => "<eof>"
  | .error => "<error>"

/-- The text of a token is what stands in the program; of a string token it is the contents, and
of an error its message. -/
structure Token where
  kind : TokenKind
  text : String
  line : Nat
deriving DecidableEq, Repr

/-- The token ends a list of tokens. -/
def Token.isLast (t : Token) : Bool := t.kind = .endOfText || t.kind = .error

end LuaMachine
