import TwinLisp.Form

/-! What is wrong with a program that can be read: found while it runs or while it is compiled. -/

namespace TwinLisp

inductive FormFault
  | operands
  | target
  | parameters
deriving DecidableEq

/-- The reason why an expression has no value or no code. -/
inductive Fault
  | undefinedVariable (name : String)
  | undefinedFunction (name : String)
  | notAnInteger (typeName : String)
  | notNumeric (text : String)
  | arityMismatch (name : String) (expected got : Nat)
  | arithOperands (op : ArithOp) (got : Nat)
  | compareOperands (op : CmpOp) (got : Nat)
  | notCallable (typeName : String)
  | comparisonAsValue (op : CmpOp)
  | emptyList
  | malformed (form : Form) (fault : FormFault)
  | divisionByZero
  | immutableBinding (name : String)
  | duplicateConst (name : String)
  | loopLimit (limit : Nat)
  | redefinition (name : String)
  | unsupported (construct : String)
deriving DecidableEq

namespace FormFault

def message (form : Form) : FormFault → String
  | operands => form.operands
  | target => "target must be an identifier"
  | parameters => "parameters must be a list of identifiers"

end FormFault

namespace Fault

private def operandCount (symbol expected : String) (got : Nat) : String :=
  "operator `" ++ symbol ++ "` expects " ++ expected ++ " operand(s), got " ++ toString got

def message : Fault → String
  | undefinedVariable name => "undefined variable: " ++ name
  | undefinedFunction name => "undefined function: " ++ name
  | notAnInteger typeName => "expected an integer, got " ++ typeName
  | notNumeric text => "string is not a number: \"" ++ text ++ "\""
  | arityMismatch name expected got =>
    name ++ " expects " ++ toString expected ++ " argument(s), got " ++ toString got
  | arithOperands op got =>
    operandCount op.symbol ("at least " ++ toString op.minOperands) got
  | compareOperands op got => operandCount op.symbol "exactly 2" got
  | notCallable typeName => "value of type " ++ typeName ++ " is not callable"
  | comparisonAsValue op => "comparison `" ++ op.symbol ++ "` is only valid in a condition"
  | emptyList => "unknown form: ()"
  | malformed form fault => "malformed `" ++ form.keyword ++ "`: " ++ fault.message form
  | divisionByZero => "division by zero"
  | immutableBinding name => "cannot assign to constant `" ++ name ++ "`"
  | duplicateConst name => "constant `" ++ name ++ "` is already defined"
  | loopLimit limit => "loop reached the limit of " ++ toString limit ++ " iterations"
  | redefinition name => "function `" ++ name ++ "` is defined more than once"
  | unsupported construct => construct ++ " is not supported by the compiled backend"

/-- Whether a constant was written to: by `set`, by `defun`, or by `const` once more. -/
def isFrozenBinding : Fault → Bool
  | immutableBinding _ | duplicateConst _ => true
  | _ => false

end Fault

/-- A fault that lowering has come to, at the expression that it is reported for. -/
structure ProgramError where
  fault : Fault
  span : Span
deriving DecidableEq

/-- A fault that evaluation has come to. It has no place when it is found; the expressions around it
give it one. -/
structure EvalError where
  fault : Fault
  span : Option Span := none
deriving DecidableEq

namespace EvalError

/-- Puts the error at `span`, unless it has a place: the innermost expression counts. -/
def withSpan (e : EvalError) (span : Span) : EvalError :=
  { e with span := e.span <|> some span }

end EvalError

end TwinLisp
