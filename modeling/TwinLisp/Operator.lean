/-! Arithmetic and comparison operators on signed 64-bit integers. -/

namespace TwinLisp

/-- An operator on one or more integers. -/
inductive ArithOp
  | add
  | sub
  | mul
  | div
deriving DecidableEq

namespace ArithOp

def symbol : ArithOp → String
  | add => "+"
  | sub => "-"
  | mul => "*"
  | div => "/"

def ofSymbol? : String → Option ArithOp
  | "+" => some add
  | "-" => some sub
  | "*" => some mul
  | "/" => some div
  | _ => none

/-- The fewest operands: `-` alone negates, the others need two. -/
def minOperands : ArithOp → Nat
  | sub => 1
  | add | mul | div => 2

/-- One step of a fold from the left; results wrap around, quotients are cut toward zero, and
only a zero divisor has no result. -/
def step? (op : ArithOp) (a b : Int64) : Option Int64 :=
  match op with
  | add => some (a + b)
  | sub => some (a - b)
  | mul => some (a * b)
  | div => if b = 0 then none else some (a / b)

theorem ofSymbol?_symbol (op : ArithOp) : ofSymbol? op.symbol = some op := by
  cases op <;> rfl

end ArithOp

inductive CmpOp
  | lt
  | gt
  | eq
  | ne
  | le
  | ge
deriving DecidableEq

namespace CmpOp

def symbol : CmpOp → String
  | lt => "<"
  | gt => ">"
  | eq => "="
  | ne => "!="
  | le => "<="
  | ge => ">="

def ofSymbol? : String → Option CmpOp
  | "<" => some lt
  | ">" => some gt
  | "=" => some eq
  | "!=" => some ne
  | "<=" => some le
  | ">=" => some ge
  | _ => none

def all : List CmpOp := [lt, gt, eq, ne, le, ge]

/-- Whether the comparison, which is signed, holds. -/
def holds (op : CmpOp) (a b : Int64) : Bool :=
  match op with
  | lt => a < b
  | gt => b < a
  | eq => a == b
  | ne => a != b
  | le => a ≤ b
  | ge => b ≤ a

theorem ofSymbol?_symbol (op : CmpOp) : ofSymbol? op.symbol = some op := by
  cases op <;> rfl

end CmpOp

end TwinLisp
