import TwinLisp.Span

/-! Reasons why a source text cannot be read. -/

namespace TwinLisp

/-- What is wrong with the shape of a `let` form. -/
inductive LetFault
  | noBindingList
  | notBinding
  | notName
  | noInitializer
  | longBinding
  | emptyBody
deriving DecidableEq

namespace LetFault

def message : LetFault → String
  | noBindingList => "expected a binding list"
  | notBinding => "expected a (name expr) binding"
  | notName => "binding name must be an identifier"
  | noInitializer => "binding is missing its initializer"
  | longBinding => "binding must be exactly (name expr)"
  | emptyBody => "body must contain at least one expression"

end LetFault

/-- The first reason why a source text is refused. -/
inductive SyntaxFault
  | unexpectedCloseParen
  | unclosedList
  | unexpectedEnd
  | integerOverflow (text : String)
  | unterminatedString
  | invalidToken
  | malformedLet (fault : LetFault)
  | malformedQuote
deriving DecidableEq

namespace SyntaxFault

def message : SyntaxFault → String
  | unexpectedCloseParen => "unexpected `)`"
  | unclosedList => "unclosed `(`"
  | unexpectedEnd => "unexpected end of input"
  | integerOverflow text => "integer literal out of range: " ++ text
  | unterminatedString => "unterminated string literal"
  | invalidToken => "unrecognized input"
  | malformedLet fault => "malformed let form: " ++ fault.message
  | malformedQuote => "malformed quote form: expected exactly one datum"

end SyntaxFault

structure SyntaxError where
  fault : SyntaxFault
  span : Span
deriving DecidableEq

namespace SyntaxError

def message (e : SyntaxError) : String :=
  e.fault.message

end SyntaxError

end TwinLisp
