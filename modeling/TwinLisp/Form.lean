import TwinLisp.Expr
import TwinLisp.Operator

/-! Special forms: what the identifier at the head of a list means. -/

namespace TwinLisp

/-- The meaning of a head; any other head is a call. -/
inductive Form
  | print
  | set
  | const
  | cond
  | not
  | and
  | or
  | loop
  | defun
  | lambda
  | quote
  | arith (op : ArithOp)
  | compare (op : CmpOp)
deriving DecidableEq

namespace Form

def keyword : Form → String
  | print => "print"
  | set => "set"
  | const => "const"
  | cond => "if"
  | not => "not"
  | and => "and"
  | or => "or"
  | loop => "while"
  | defun => "defun"
  | lambda => "lambda"
  | quote => "quote"
  | arith op => op.symbol
  | compare op => op.symbol

/-- The form of a head; `let` is none, because it is read as a node of its own. -/
def classify : String → Option Form
  | "print" => some print
  | "set" => some set
  | "const" => some const
  | "if" => some cond
  | "not" => some not
  | "and" => some and
  | "or" => some or
  | "while" => some loop
  | "defun" => some defun
  | "lambda" => some lambda
  | "quote" => some quote
  | head => ((ArithOp.ofSymbol? head).map arith).or ((CmpOp.ofSymbol? head).map compare)

/-- What the operands of a form should be, in words. -/
def operands : Form → String
  | print => "expects at least one argument"
  | set | const => "expects a name and a value"
  | cond => "expects a condition, a then branch and an else branch"
  | not => "expects exactly one operand"
  | loop => "expects a condition and at least one body expression"
  | defun => "expects a name, a parameter list and a body"
  | lambda => "expects a parameter list and a body"
  | quote => "expects exactly one datum"
  | arith op => "expects at least " ++ toString op.minOperands ++ " operand(s)"
  | compare _ => "expects exactly 2 operand(s)"
  | and | or => "expects any operands"

theorem classify_keyword (form : Form) : classify form.keyword = some form := by
  cases form with
  | arith op => cases op <;> rfl
  | compare op => cases op <;> rfl
  | _ => rfl

end Form

namespace Expr

/-- The operator and operands of a list that is headed by a comparison. -/
def comparison? : Expr → Option (CmpOp × List Expr)
  | list (ident name _ :: operands) _ =>
    match Form.classify name with
    | some (.compare op) => some (op, operands)
    | _ => none
  | _ => none

end Expr

end TwinLisp
