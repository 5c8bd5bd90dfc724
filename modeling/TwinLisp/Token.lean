import TwinLisp.Span
import TwinLisp.Text.Decimal

/-! Tokens of the language and the place of each in the source. -/

namespace TwinLisp

/-- What a token says. -/
inductive Lexeme
  | openParen
  | closeParen
  | quoteMark
  | int (value : Int64)
  | str (text : String)
  | ident (name : String)
deriving DecidableEq

namespace Lexeme

/-- A word is an integer literal if it has that form, else an identifier; `none` means that its
value does not fit. -/
def ofWord? (word : List Char) : Option Lexeme :=
  if Text.Decimal.isLiteral word then (Text.Decimal.int64? word).map .int
  else some (.ident (String.ofList word))

def text? : Lexeme → Option String
  | str text => some text
  | ident name => some name
  | _ => none

end Lexeme

structure Token where
  lexeme : Lexeme
  span : Span
deriving DecidableEq

end TwinLisp
