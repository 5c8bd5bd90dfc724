import TwinLisp.Token.Layout
import TwinLisp.Value

/-! Data that the text of a program can say: integers, symbols that can be written, and lists. -/

namespace TwinLisp

/-- The value is made of integers, of symbols that are written like identifiers, and of lists. -/
inductive Value.IsDatum : Value → Prop
  | int (n : Int64) : IsDatum (.int n)
  | sym {name : String} (writable : (Lexeme.ident name).Writable) : IsDatum (.sym name)
  | list {items : List Value} (each : ∀ v ∈ items, IsDatum v) : IsDatum (.list items)

end TwinLisp
