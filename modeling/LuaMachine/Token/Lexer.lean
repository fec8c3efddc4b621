import LuaMachine.Number.Numeral
import LuaMachine.Token
/-! # From text to tokens

Blanks and comments are skipped, and each token is the longest one that can begin where it stands.
A text in quotes may hold escapes; a text in long brackets holds everything up to a closing
bracket of the same level. Lines are counted by line feeds.

* `Lexer.scan`: the next token, with the rest of the text and its line.
* `tokens`: all tokens of a program.
-/
set_option autoImplicit false

namespace LuaMachine

/-- Why a text cannot be split into tokens. -/
inductive LexicalError where
  | unexpectedSymbol (c : Char)
  | unfinishedComment
  | unfinishedLongString
  | unfinishedString
  | hexDigitExpected
  | missingOpeningBrace
  | missingClosingBrace
  | codePointTooLarge
  | decimalTooLarge
  | invalidEscape (c : Char)
deriving DecidableEq, Repr

def LexicalError.message : LexicalError → String
  | .unexpectedSymbol c => "unexpected symbol near '" ++ c.toString ++ "'"
  | .unfinishedComment => "unfinished long comment"
  | .unfinishedLongString => "unfinished long string"
  | .unfinishedString => "unfinished string"
  | .hexDigitExpected => "hexadecimal digit expected"
  | .missingOpeningBrace => "missing '\x7b' in \\u\x7bxxxx\x7d"
  | .missingClosingBrace => "missing '\x7d' in \\u\x7bxxxx\x7d"
  | .codePointTooLarge => "UTF-8 value too large"
  | .decimalTooLarge => "decimal escape too large"
  | .invalidEscape c => "invalid escape sequence '\\" ++ c.toString ++ "'"

namespace Lexer

/-! ## Characters -/

def isLetter (c : Char) : Bool := c.isAlpha || c = '_'

def isWordChar (c : Char) : Bool := isLetter c || c.isDigit

/-- The character of a byte. -/
def byteChar (n : Nat) : Char := Char.ofNat (n % 256)

/-! ## Long brackets -/

/-- What stands between the two brackets that open a long bracket: equals signs, as many as the
level. The text begins after the first bracket. -/
def longOpening? (s : List Char) : Option (Nat × List Char) :=
  match s.dropWhile (· = '=') with
  | '[' :: r => some ((s.takeWhile (· = '=')).length, r)
  | _ => none

/-- The rest after the closing bracket of a level, where the text begins after its first half. -/
def longClosing? (level : Nat) (s : List Char) : Option (List Char) :=
  if (s.takeWhile (· = '=')).length = level then
    match s.dropWhile (· = '=') with
    | ']' :: r => some r
    | _ => none
  else none

/-- A text with what follows it and the line it ends in. -/
structure Piece where
  contents : List Char
  rest : List Char
  line : Nat

/-- The contents of a long bracket up to its closing; without one, the last line. -/
def longContents (level : Nat) : List Char → Nat → Except Nat Piece
  | [], line => .error line
  | c :: r, line =>
    match (if c = ']' then longClosing? level r else none) with
    | some rest => .ok ⟨[], rest, line⟩
    | none =>
      (longContents level r (if c = '\n' then line + 1 else line)).map
        fun p => { p with contents := c :: p.contents }

/-- A line break right after the opening bracket does not belong to the contents. -/
def longBracket (level : Nat) (s : List Char) (line : Nat) : Except Nat Piece :=
  match s with
  | '\r' :: '\n' :: r => longContents level r (line + 1)
  | '\r' :: r => longContents level r (line + 1)
  | '\n' :: '\r' :: r => longContents level r (line + 1)
  | '\n' :: r => longContents level r (line + 1)
  | s => longContents level s line

/-! ## Blanks and comments -/

def skipBlanks : List Char → Nat → List Char × Nat
  | [], line => ([], line)
  | c :: r, line =>
    if c = '\n' then skipBlanks r (line + 1)
    else if Numeral.isBlank c then skipBlanks r line
    else (c :: r, line)

/-- Skips blanks and comments; of a long comment that does not end, the last line is reported.
Each step but the last skips a comment, so there are fewer steps than characters. -/
def skip : Nat → List Char → Nat → Except Nat (List Char × Nat)
  | 0, s, line => .ok (skipBlanks s line)
  | fuel + 1, s, line =>
    let (s, line) := skipBlanks s line
    match s with
    | '-' :: '-' :: r =>
      let long :=
        match r with
        | '[' :: r' => longOpening? r'
        | _ => none
      match long with
      | some (level, body) =>
        match longBracket level body line with
        | .ok p => skip fuel p.rest p.line
        | .error last => .error last
      | none => skip fuel (r.dropWhile (· ≠ '\n')) line
    | s => .ok (s, line)

/-! ## Escapes -/

/-- The bytes of a code point of at most 31 bits. A code point of more than 16 bits takes four
bytes, the first of which keeps only its low eight bits. -/
def codePointBytes (code : Nat) : List Char :=
  let tail (shift : Nat) : Char := byteChar (0x80 ||| ((code >>> shift) &&& 0x3F))
  if code < 0x80 then [byteChar code]
  else if code < 0x800 then [byteChar (0xC0 ||| (code >>> 6)), tail 0]
  else if code < 0x10000 then [byteChar (0xE0 ||| (code >>> 12)), tail 6, tail 0]
  else [byteChar (0xF0 ||| (code >>> 18)), tail 12, tail 6, tail 0]

/-- The value of hexadecimal digits, kept to 32 bits and checked after each digit. -/
def codePoint? : List Char → Nat → Option Nat
  | [], code => some code
  | c :: r, code =>
    let next := (code * 16 + Numeral.digitValue c) % 0x100000000
    if 0x7FFFFFFF < next then none else codePoint? r next

def unicodeEscape (s : List Char) (line : Nat) : Except LexicalError Piece :=
  match s with
  | '\x7b' :: r =>
    let digits := r.takeWhile Numeral.isHexDigit
    match codePoint? digits 0 with
    | none => .error .codePointTooLarge
    | some code =>
      match r.dropWhile Numeral.isHexDigit with
      | '\x7d' :: rest =>
        if digits.isEmpty then .error .missingClosingBrace
        else .ok ⟨codePointBytes code, rest, line⟩
      | _ => .error .missingClosingBrace
  | _ => .error .missingOpeningBrace

def hexEscape (s : List Char) (line : Nat) : Except LexicalError Piece :=
  match s with
  | a :: b :: rest =>
    if Numeral.isHexDigit a && Numeral.isHexDigit b then
      .ok ⟨[byteChar (Numeral.valueIn 16 [a, b])], rest, line⟩
    else .error .hexDigitExpected
  | _ => .error .hexDigitExpected

/-- Up to three decimal digits. -/
def decimalEscape (s : List Char) (line : Nat) : Except LexicalError Piece :=
  let digits := (s.take 3).takeWhile Char.isDigit
  let n := Numeral.valueIn 10 digits
  if 255 < n then .error .decimalTooLarge
  else .ok ⟨[byteChar n], s.drop digits.length, line⟩

/-- Skips blanks inside of a quoted text. -/
def skipGap : List Char → Nat → List Char × Nat
  | [], line => ([], line)
  | c :: r, line =>
    if c = '\n' then skipGap r (line + 1)
    else if c = ' ' || c = '\t' || c = '\r' then skipGap r line
    else (c :: r, line)

/-- What an escape stands for; the text begins after the backslash. -/
def escape (c : Char) (r : List Char) (line : Nat) : Except LexicalError Piece :=
  match c with
  | 'a' => .ok ⟨['\x07'], r, line⟩
  | 'b' => .ok ⟨['\x08'], r, line⟩
  | 'f' => .ok ⟨['\x0c'], r, line⟩
  | 'n' => .ok ⟨['\n'], r, line⟩
  | 'r' => .ok ⟨['\r'], r, line⟩
  | 't' => .ok ⟨['\t'], r, line⟩
  | 'v' => .ok ⟨['\x0b'], r, line⟩
  | '\\' => .ok ⟨['\\'], r, line⟩
  | '\'' => .ok ⟨['\''], r, line⟩
  | '"' => .ok ⟨['"'], r, line⟩
  | '\n' => .ok ⟨['\n'], r, line + 1⟩
  | '\r' =>
    match r with
    | '\n' :: r' => .ok ⟨['\n'], r', line + 1⟩
    | r => .ok ⟨['\n'], r, line + 1⟩
  | 'z' =>
    let (rest, line) := skipGap r line
    .ok ⟨[], rest, line⟩
  | 'x' => hexEscape r line
  | 'u' => unicodeEscape r line
  | c => if c.isDigit then decimalEscape (c :: r) line else .error (.invalidEscape c)

/-- An error with the line where it is found. -/
structure Located where
  error : LexicalError
  line : Nat

/-- The contents of a quoted text up to its closing quote. Each step takes a character at least,
so there are no more steps than characters. -/
def quoted (quote : Char) : Nat → List Char → Nat → Except Located Piece
  | 0, _, line => .error ⟨.unfinishedString, line⟩
  | _, [], line => .error ⟨.unfinishedString, line⟩
  | fuel + 1, c :: r, line =>
    if c = quote then .ok ⟨[], r, line⟩
    else if c = '\n' then .error ⟨.unfinishedString, line⟩
    else if c = '\\' then
      match r with
      | [] => .error ⟨.unfinishedString, line⟩
      | e :: r' =>
        match escape e r' line with
        | .error error => .error ⟨error, line⟩
        | .ok p =>
          (quoted quote fuel p.rest p.line).map
            fun q => { q with contents := p.contents ++ q.contents }
    else
      (quoted quote fuel r line).map fun q => { q with contents := c :: q.contents }

/-! ## Numerals and words -/

/-- The longest run that can belong to a numeral; a sign belongs to it after an exponent mark. -/
def numeralRun (mark : Char → Bool) : Bool → List Char → List Char × List Char
  | _, [] => ([], [])
  | afterMark, c :: r =>
    if (afterMark && (c = '+' || c = '-')) || mark c || Numeral.isHexDigit c || c = '.' then
      let (run, rest) := numeralRun mark (mark c) r
      (c :: run, rest)
    else ([], c :: r)

/-- A numeral that begins with `c`. Letters behind it belong to it, which makes it malformed. -/
def numeral (c : Char) (r : List Char) : List Char × List Char :=
  let (start, mark, r) : List Char × (Char → Bool) × List Char :=
    match r with
    | x :: r' =>
      if c = '0' && (x = 'x' || x = 'X') then ([c, x], (fun m => m = 'p' || m = 'P'), r')
      else ([c], (fun m => m = 'e' || m = 'E'), r)
    | [] => ([c], (fun m => m = 'e' || m = 'E'), [])
  let (run, rest) := numeralRun mark false r
  (start ++ run ++ rest.takeWhile isWordChar, rest.dropWhile isWordChar)

/-- The symbol that begins with `c`, the longest that fits. -/
def symbol? (c : Char) (r : List Char) : Option (Symbol × List Char) :=
  match c, r with
  | '(', r => some (.leftParen, r)
  | ')', r => some (.rightParen, r)
  | '\x7b', r => some (.leftBrace, r)
  | '\x7d', r => some (.rightBrace, r)
  | '[', r => some (.leftBracket, r)
  | ']', r => some (.rightBracket, r)
  | ',', r => some (.comma, r)
  | ';', r => some (.semicolon, r)
  | '+', r => some (.plus, r)
  | '-', r => some (.minus, r)
  | '*', r => some (.star, r)
  | '%', r => some (.percent, r)
  | '^', r => some (.caret, r)
  | '#', r => some (.hash, r)
  | '&', r => some (.ampersand, r)
  | '|', r => some (.pipe, r)
  | '/', '/' :: r => some (.slashSlash, r)
  | '/', r => some (.slash, r)
  | ':', ':' :: r => some (.colonColon, r)
  | ':', r => some (.colon, r)
  | '=', '=' :: r => some (.equalEqual, r)
  | '=', r => some (.equal, r)
  | '<', '<' :: r => some (.lessLess, r)
  | '<', '=' :: r => some (.lessEqual, r)
  | '<', r => some (.less, r)
  | '>', '>' :: r => some (.greaterGreater, r)
  | '>', '=' :: r => some (.greaterEqual, r)
  | '>', r => some (.greater, r)
  | '~', '=' :: r => some (.tildeEqual, r)
  | '~', r => some (.tilde, r)
  | '.', '.' :: '.' :: r => some (.dotDotDot, r)
  | '.', '.' :: r => some (.dotDot, r)
  | '.', r => some (.dot, r)
  | _, _ => none

/-! ## Tokens -/

/-- A token with what follows it and the line where that begins. -/
structure Scan where
  token : Token
  rest : List Char
  line : Nat

def failure (error : LexicalError) (line : Nat) : Scan :=
  ⟨⟨.error, error.message, line⟩, [], line⟩

def word (c : Char) (r : List Char) (line : Nat) : Scan :=
  let text := String.ofList (c :: r.takeWhile isWordChar)
  let kind :=
    match Keyword.ofSpelling? text with
    | some k => .keyword k
    | none => .identifier
  ⟨⟨kind, text, line⟩, r.dropWhile isWordChar, line⟩

def numeralToken (c : Char) (r : List Char) (line : Nat) : Scan :=
  let (text, rest) := numeral c r
  ⟨⟨.number, String.ofList text, line⟩, rest, line⟩

def symbolToken (c : Char) (r : List Char) (line : Nat) : Scan :=
  match symbol? c r with
  | some (s, rest) => ⟨⟨.symbol s, s.spelling, line⟩, rest, line⟩
  | none => failure (.unexpectedSymbol c) line

def quotedToken (bound : Nat) (quote : Char) (r : List Char) (line : Nat) : Scan :=
  match quoted quote bound r line with
  | .ok p => ⟨⟨.string, String.ofList p.contents, line⟩, p.rest, p.line⟩
  | .error e => failure e.error e.line

def longToken (level : Nat) (body : List Char) (line : Nat) : Scan :=
  match longBracket level body line with
  | .ok p => ⟨⟨.string, String.ofList p.contents, line⟩, p.rest, p.line⟩
  | .error last => failure .unfinishedLongString last

/-- The token that begins with `c`; no more than `bound` characters follow. -/
def scanAt (bound : Nat) (c : Char) (r : List Char) (line : Nat) : Scan :=
  if isLetter c then word c r line
  else if c.isDigit then numeralToken c r line
  else if c = '"' || c = '\'' then quotedToken bound c r line
  else if c = '[' then
    match longOpening? r with
    | some (level, body) => longToken level body line
    | none => symbolToken c r line
  else if c = '.' && (r.head?.map Char.isDigit).getD false then numeralToken c r line
  else symbolToken c r line

/-- The next token of a text of no more than `bound` characters that begins in the given line. -/
def scan (bound : Nat) (s : List Char) (line : Nat) : Scan :=
  match skip bound s line with
  | .error last => failure .unfinishedComment last
  | .ok ([], line) => ⟨⟨.endOfText, "", line⟩, [], line⟩
  | .ok (c :: r, line) => scanAt bound c r line

/-- The tokens of a text of no more than `bound` characters, up to its end or the first error,
behind those found before, which come last first. Each token but the last takes a character at
least. -/
def scanAll (seen : List Token) : Nat → List Char → Nat → List Token
  | bound, s, line =>
    let r := scan bound s line
    if r.token.isLast then (r.token :: seen).reverse
    else
      match bound with
      | 0 => (⟨.endOfText, "", line⟩ :: seen).reverse
      | bound + 1 => scanAll (r.token :: seen) bound r.rest r.line

/-- A first line that begins with `#!` is no part of the program. -/
def skipDirective (s : List Char) : List Char :=
  match s with
  | '#' :: '!' :: r => r.dropWhile (· ≠ '\n')
  | s => s

end Lexer

/-- The tokens of a program text. -/
def tokens (text : String) : List Token :=
  let s := Lexer.skipDirective text.toList
  Lexer.scanAll [] s.length s 1

end LuaMachine
