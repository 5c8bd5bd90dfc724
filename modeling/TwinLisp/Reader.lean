import TwinLisp.Reader.State
import TwinLisp.Token.Scan

/-! Reading: from a source text to its top-level expressions. -/

namespace TwinLisp.Reader

/-- The top-level expressions that tokens spell; `length` is where their text ends. -/
def readTokens (tokens : List Token) (length : Nat) : Except SyntaxError (List Expr) :=
  (tokens.foldlM State.step State.initial).bind (·.finish length)

/-- The top-level expressions of a source text, or the first fault in it; a fault in a token
hides every fault in the arrangement of tokens. -/
def read (source : String) : Except SyntaxError (List Expr) :=
  (Scan.tokens source).bind (readTokens · source.utf8ByteSize)

end TwinLisp.Reader
