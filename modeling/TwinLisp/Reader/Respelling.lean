import TwinLisp.Reader.Grammar
import TwinLisp.Token.Layout

/-! The two ways to write quoted data, in the text of a program. -/

namespace TwinLisp.Reader

open Layout Scan

/-- A program in which an apostrophe is written out: the datum that belongs to it stands in a `quote`
list, with the gaps in it. -/
def writtenOut (before : List Piece) (mark : Piece) (datum after : List Piece) (trailing : List Char) :
    String :=
  String.ofList (text before ++ mark.gap ++ "(quote ".toList ++ text datum ++ ")".toList ++ text after
    ++ trailing)

/-- The second text is the first one with an apostrophe written out, behind which the first one has the
tokens of a datum. -/
inductive Respelled : String → String → Prop
  | intro {before : List Piece} {mark : Piece} {datum after : List Piece} {trailing : List Char}
    (ended : Trailing trailing) (maximal : Maximal (before ++ mark :: datum ++ after) trailing)
    (quotes : mark.lexeme = .quoteMark) (offset : Nat) {d : Expr}
    (derived : Derives .datum (place .ofOffsets offset datum) d) :
    Respelled
      (String.ofList
        (text before ++ mark.gap ++ [apostrophe] ++ text datum ++ text after ++ trailing))
      (writtenOut before mark datum after trailing)

end TwinLisp.Reader
