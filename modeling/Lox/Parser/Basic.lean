/-
  Lox.Parser.Basic

  What every rule of the grammar is built from.

    * `ParseState` — the tokens not yet read, the loops around the position, the
      faults reported so far and the number of the next occurrence;
    * `Parser` — a step on such a state that may give up with a diagnostic, which
      does not undo what it read;
    * reading tokens: `peek`, `take?`, `accept`, `expect`;
    * reporting: `report` carries on, `fail` gives up;
    * `recovering` — turns giving up into a reported fault and moves on to the next
      place where a statement may begin.
-/
import Lox.Diagnostic
import Lox.Syntax.Tree

namespace Lox

/-- A position in a token list, and what was found on the way there. -/
structure ParseState where
  /-- The tokens before the end mark that were not read yet. -/
  rest : List Token
  /-- The end mark. -/
  ending : Token
  /-- The number of loops around the position, within the innermost function. -/
  loops : Nat
  /-- The faults reported so far. -/
  faults : Array Diagnostic
  /-- The number that the next occurrence gets. -/
  nextId : Nat

/-- A step that reads tokens and yields a value or gives up. -/
abbrev Parser := EStateM Diagnostic ParseState

namespace ParseState

/-- The start of a token list.  The first end mark ends it; a list without one
    goes on repeating its last token, here as often as it has tokens, and an
    empty list has an end mark on line zero. -/
def ofTokens (tokens : List Token) (nextId : Nat) : ParseState :=
  let before := tokens.takeWhile (·.kind ≠ .eof)
  match (tokens.dropWhile (·.kind ≠ .eof)).head?, tokens.getLast? with
  | some ending, _ => ⟨before, ending, 0, #[], nextId⟩
  | none, some last => ⟨tokens ++ List.replicate tokens.length last, last, 0, #[], nextId⟩
  | none, none => ⟨[], Token.mk .eof "" 0, 0, #[], nextId⟩

/-- The next token, or the end mark. -/
def current (s : ParseState) : Token := s.rest.headD s.ending

end ParseState

namespace Parser

/-! ## Reading -/

/-- The next token, or the end mark. -/
def peek : Parser Token := fun s => .ok s.current s

/-- Reads one token; at the end nothing happens. -/
def advance : Parser Unit := fun s => .ok () { s with rest := s.rest.tail }

/-- Reads the next token if `select` knows its kind. -/
def take? {α : Type} (select : TokenKind → Option α) : Parser (Option (α × Token)) := fun s =>
  match s.rest with
  | [] => .ok none s
  | t :: rest =>
    match select t.kind with
    | none => .ok none s
    | some a => .ok (some (a, t)) { s with rest }

/-- Whether the next token is of the given type; the end mark is of none. -/
def check (kind : TokenKind) : Parser Bool := fun s =>
  .ok (s.rest.head?.any (·.kind.sameType kind)) s

/-- Reads the next token if it is of the given type. -/
def accept (kind : TokenKind) : Parser (Option Token) := fun s =>
  match s.rest with
  | [] => .ok none s
  | t :: rest => if t.kind.sameType kind then .ok (some t) { s with rest } else .ok none s

/-! ## Reporting -/

/-- A syntax fault at a token. -/
def diagnostic (t : Token) (fault : SyntaxFault) : Diagnostic :=
  .syntactic t.line t.place fault

/-- Notes a fault and carries on. -/
def report (t : Token) (fault : SyntaxFault) : Parser Unit := fun s =>
  .ok () { s with faults := s.faults.push (diagnostic t fault) }

/-- Gives up at the next token. -/
def fail {α : Type} (fault : SyntaxFault) : Parser α := fun s =>
  .error (diagnostic s.current fault) s

/-- Reads a token of the given type, or gives up. -/
def expect (kind : TokenKind) (fault : SyntaxFault) : Parser Token := do
  match ← accept kind with
  | some t => pure t
  | none => fail fault

/-- Reads a symbol, or gives up. -/
def expectSymbol (symbol : Symbol) (fault : SyntaxFault) : Parser Token :=
  expect (.symbol symbol) fault

/-- Reads a name, or gives up. -/
def expectName (fault : SyntaxFault) : Parser Lexeme := do
  return (← expect .identifier fault).toLexeme

/-- Reads a symbol if it comes next. -/
def acceptSymbol (symbol : Symbol) : Parser Bool := do
  return (← accept (.symbol symbol)).isSome

/-! ## Occurrences -/

/-- A new occurrence of a name. -/
def occurrence (name : Lexeme) : Parser Occurrence := fun s =>
  .ok ⟨s.nextId, name⟩ { s with nextId := s.nextId + 1 }

/-! ## Loops -/

/-- Runs a step with another count of loops around it.  However the step ends, the
    count is what it was. -/
def withLoops {α : Type} (change : Nat → Nat) (p : Parser α) : Parser α := fun s =>
  match p { s with loops := change s.loops } with
  | .ok a t => .ok a { t with loops := s.loops }
  | .error e t => .error e { t with loops := s.loops }

/-- Runs a step inside one more loop. -/
def insideLoop {α : Type} (p : Parser α) : Parser α := withLoops (· + 1) p

/-- Runs a step inside no loop, as in the body of a function. -/
def outsideLoops {α : Type} (p : Parser α) : Parser α := withLoops (fun _ => 0) p

/-! ## Recovery -/

/-- The words that begin a statement. -/
def startsStatement : TokenKind → Bool
  | .keyword .classWord | .keyword .funWord | .keyword .varWord | .keyword .forWord
  | .keyword .ifWord | .keyword .whileWord | .keyword .printWord | .keyword .returnWord => true
  | _ => false

/-- What is left after skipping to a boundary between statements: behind a
    semicolon, or before a word that begins a statement.  `last` is the token read
    before. -/
def skipToBoundary (last : Token) : List Token → List Token
  | [] => []
  | t :: rest =>
    if last.kind = .symbol .semicolon || startsStatement t.kind then t :: rest
    else skipToBoundary t rest

/-- What is left when a statement was given up before `rest`: at least one token is
    skipped, if there is one. -/
def afterFault : List Token → List Token
  | [] => []
  | t :: rest => skipToBoundary t rest

/-- Runs a step; when it gives up, notes the fault, skips to the next boundary and
    yields nothing. -/
def recovering {α : Type} (p : Parser α) : Parser (Option α) := fun s =>
  match p s with
  | .ok a t => .ok (some a) t
  | .error e t => .ok none { t with faults := t.faults.push e, rest := afterFault t.rest }

end Parser

end Lox
