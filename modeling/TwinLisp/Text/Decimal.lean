/-! Decimal integers of 64 bits: reading them from text and writing them. -/

namespace TwinLisp.Text.Decimal

def digit? (c : Char) : Option Nat :=
  if c.isDigit then some (c.toNat - 48) else none

/-- The number that one or more digits spell. -/
def nat? (cs : List Char) : Option Nat :=
  if cs.isEmpty then none
  else cs.foldlM (fun n c => (digit? c).map (10 * n + ·)) 0

/-- The number that an optional sign and one or more digits spell. -/
def int? : List Char → Option Int
  | '+' :: cs => (nat? cs).map (↑·)
  | '-' :: cs => (nat? cs).map (-↑·)
  | cs => (nat? cs).map (↑·)

/-- Whether the text is an optional minus sign and one or more digits. -/
def isLiteral : List Char → Bool
  | '-' :: cs => !cs.isEmpty && cs.all Char.isDigit
  | cs => !cs.isEmpty && cs.all Char.isDigit

/-- A signed number of 64 bits; other numbers are refused, not wrapped. -/
def int64? (cs : List Char) : Option Int64 :=
  match int? cs with
  | some n => if Int64.minValue.toInt ≤ n ∧ n ≤ Int64.maxValue.toInt then some (Int64.ofInt n) else none
  | none => none

/-- An unsigned number below `2 ^ 64`, with an optional plus sign. -/
def word64? (cs : List Char) : Option Nat :=
  let digits := match cs with
    | '+' :: ds => ds
    | ds => ds
  match nat? digits with
  | some n => if n < UInt64.size then some n else none
  | none => none

/-- The digits of a signed number, behind a minus sign where it is negative. -/
def text (n : Int64) : String :=
  toString n.toInt

end TwinLisp.Text.Decimal
