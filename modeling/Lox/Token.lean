/-
  Lox.Token

  The tokens of the language.

    * `Symbol`, `Keyword` — the fixed spellings.
    * `TokenKind` — what a token is; strings and numbers carry their value.
    * `Token` — a kind with the text it was read from and the line it ends on.

  `TokenKind.sameType` and `Token.agrees` compare tokens without their values.
-/

namespace Lox

/-! ## Fixed spellings -/

/-- Punctuation and operators. -/
inductive Symbol where
  | leftParen | rightParen | leftBrace | rightBrace | comma | dot | minus | plus
  | semicolon | slash | star | bang | bangEqual | equal | equalEqual | greater
  | greaterEqual | less | lessEqual
deriving DecidableEq, Repr

/-- Reserved words. -/
inductive Keyword where
  | andWord | breakWord | classWord | elseWord | falseWord | funWord | forWord | ifWord
  | nilWord | orWord | printWord | returnWord | superWord | thisWord | trueWord | varWord
  | whileWord
deriving DecidableEq, Repr

namespace Symbol

/-- All symbols. -/
def all : List Symbol :=
  [.leftParen, .rightParen, .leftBrace, .rightBrace, .comma, .dot, .minus, .plus,
    .semicolon, .slash, .star, .bang, .bangEqual, .equal, .equalEqual, .greater,
    .greaterEqual, .less, .lessEqual]

/-- The name of a symbol in listings. -/
def name : Symbol → String
  | leftParen => "LEFT_PAREN"
  | rightParen => "RIGHT_PAREN"
  | leftBrace => "LEFT_BRACE"
  | rightBrace => "RIGHT_BRACE"
  | comma => "COMMA"
  | dot => "DOT"
  | minus => "MINUS"
  | plus => "PLUS"
  | semicolon => "SEMICOLON"
  | slash => "SLASH"
  | star => "STAR"
  | bang => "BANG"
  | bangEqual => "BANG_EQUAL"
  | equal => "EQUAL"
  | equalEqual => "EQUAL_EQUAL"
  | greater => "GREATER"
  | greaterEqual => "GREATER_EQUAL"
  | less => "LESS"
  | lessEqual => "LESS_EQUAL"

/-- The symbol that a single character is. -/
def ofChar? : Char → Option Symbol
  | '(' => some leftParen
  | ')' => some rightParen
  | '\x7b' => some leftBrace
  | '\x7d' => some rightBrace
  | ',' => some comma
  | '.' => some dot
  | '-' => some minus
  | '+' => some plus
  | ';' => some semicolon
  | '/' => some slash
  | '*' => some star
  | '!' => some bang
  | '=' => some equal
  | '>' => some greater
  | '<' => some less
  | _ => none

/-- The symbol that a symbol becomes with `=` directly after it. -/
def withEqual? : Symbol → Option Symbol
  | bang => some bangEqual
  | equal => some equalEqual
  | greater => some greaterEqual
  | less => some lessEqual
  | _ => none

end Symbol

namespace Keyword

/-- All reserved words. -/
def all : List Keyword :=
  [.andWord, .breakWord, .classWord, .elseWord, .falseWord, .funWord, .forWord, .ifWord,
    .nilWord, .orWord, .printWord, .returnWord, .superWord, .thisWord, .trueWord, .varWord,
    .whileWord]

/-- How a reserved word is written. -/
def text : Keyword → String
  | andWord => "and"
  | breakWord => "break"
  | classWord => "class"
  | elseWord => "else"
  | falseWord => "false"
  | funWord => "fun"
  | forWord => "for"
  | ifWord => "if"
  | nilWord => "nil"
  | orWord => "or"
  | printWord => "print"
  | returnWord => "return"
  | superWord => "super"
  | thisWord => "this"
  | trueWord => "true"
  | varWord => "var"
  | whileWord => "while"

/-- The name of a reserved word in listings. -/
def name : Keyword → String
  | andWord => "AND"
  | breakWord => "BREAK"
  | classWord => "CLASS"
  | elseWord => "ELSE"
  | falseWord => "FALSE"
  | funWord => "FUN"
  | forWord => "FOR"
  | ifWord => "IF"
  | nilWord => "NIL"
  | orWord => "OR"
  | printWord => "PRINT"
  | returnWord => "RETURN"
  | superWord => "SUPER"
  | thisWord => "THIS"
  | trueWord => "TRUE"
  | varWord => "VAR"
  | whileWord => "WHILE"

/-- The reserved word that a text is. -/
def ofText? (text : String) : Option Keyword := all.find? (·.text = text)

end Keyword

/-! ## Tokens -/

/-- What a token is. -/
inductive TokenKind where
  | symbol (symbol : Symbol)
  | keyword (keyword : Keyword)
  | identifier
  | string (content : String)
  | number (value : Float)
  | eof
deriving DecidableEq

namespace TokenKind

/-- The name of a kind in listings. -/
def name : TokenKind → String
  | symbol s => s.name
  | keyword k => k.name
  | identifier => "IDENTIFIER"
  | string _ => "STRING"
  | number _ => "NUMBER"
  | eof => "EOF"

/-- Whether two kinds are the same apart from the values they carry. -/
def sameType : TokenKind → TokenKind → Bool
  | symbol s, symbol t => s = t
  | keyword k, keyword l => k = l
  | identifier, identifier => true
  | string _, string _ => true
  | number _, number _ => true
  | eof, eof => true
  | _, _ => false

/-- The kinds that carry no value. -/
def plain : List TokenKind :=
  Symbol.all.map symbol ++ Keyword.all.map keyword ++ [identifier, eof]

/-- The kind without a value that has the given name. -/
def ofName? (name : String) : Option TokenKind := plain.find? (·.name = name)

end TokenKind

/-- A piece of source text with a meaning of its own. -/
structure Token where
  kind : TokenKind
  /-- The text that the token was read from. -/
  lexeme : String
  /-- The line on which that text ends, counted from one. -/
  line : Nat
deriving DecidableEq

/-- Whether two tokens have the same type, text and line. -/
def Token.agrees (a b : Token) : Bool :=
  a.kind.sameType b.kind && a.lexeme = b.lexeme && a.line = b.line

end Lox
