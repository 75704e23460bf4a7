/-
  Lox.Token.Text

  How tokens are listed: `Token.text` has one readable line per token,
  `Token.jsonText` one JSON object.
-/
import Lox.Number.Text
import Lox.Text.Quoted
import Lox.Token

namespace Lox

/-- The value column of a listing. -/
def TokenKind.literalText : TokenKind → String
  | .string content => content
  | .number value => Number.literalText value
  | _ => "null"

/-- Type, lexeme and value of a token. -/
def Token.text (t : Token) : String :=
  t.kind.name ++ " " ++ t.lexeme ++ " " ++ t.kind.literalText

/-- A kind in JSON: its name, and under the name its value if it carries one. -/
def TokenKind.jsonText : TokenKind → String
  | .string content => "\x7b\"STRING\":" ++ Text.Quoted.json content ++ "\x7d"
  | .number value => "\x7b\"NUMBER\":" ++ Number.jsonText value ++ "\x7d"
  | kind => Text.Quoted.json kind.name

/-- A token as a JSON object without blanks. -/
def Token.jsonText (t : Token) : String :=
  "\x7b\"token_type\":" ++ t.kind.jsonText ++ ",\"lexeme\":" ++ Text.Quoted.json t.lexeme
    ++ ",\"line\":" ++ toString t.line ++ "\x7d"

end Lox
