import TwinLisp.Graph.Lowering.Forms
import TwinLisp.Graph.Verify

/-! Lowering: from a program to a verified module. -/

namespace TwinLisp.Graph

/-- How a program is lowered: `presolve` makes the definitions at the top level known before any
call is lowered. -/
structure LowerConfig where
  moduleName : String := "alang"
  presolve : Bool := true
deriving DecidableEq

/-- Why a program has no module. -/
inductive LowerError
  | program (error : ProgramError)
  | verify (error : VerifyError)
deriving DecidableEq

namespace LowerError

def message : LowerError → String
  | program error => error.fault.message
  | verify error => "module verification failed: " ++ error.message

/-- The place of the error; a module that fails verification has none. -/
def span? : LowerError → Option Span
  | program error => some error.span
  | verify _ => none

end LowerError

namespace Lowering

def signature? (e : Expr) : Option (String × Nat) :=
  match e with
  -- whether the parameters are names is looked at when the definition is lowered
  | .list (.ident head _ :: .ident name _ :: .list params _ :: _ :: _) _ =>
    if Form.classify head = some .defun then some (name, params.length) else none
  | _ => none

/-- Declares the definition that an expression is; the first of a name counts. -/
def presolve (s : State) (e : Expr) : State :=
  match signature? e with
  | none => s
  | some (name, arity) =>
    if (s.signatures.get? name).isSome then s
    else
      let (unit, module) := s.module.declareUnit name arity
      { s with module, signatures := s.signatures.declare name unit arity }

/-- Lowers top-level expressions into `main`, which yields zero. -/
def lowerMain (program : List Expr) : LowerM Unit := do
  let _ ← lowerBody (Code.ofExprs program)
  terminate (.ret (.const 0))
  modify fun s =>
    { s with module := s.module.setBody s.current.unit s.current.builder.finish }

/-- The module of a program before it is verified. -/
def lowerUnverified (config : LowerConfig) (program : List Expr) : Except ProgramError Module :=
  let start := State.initial config.moduleName
  let start := if config.presolve then program.foldl presolve start else start
  match lowerMain program start with
  | .ok _ s => .ok s.module
  | .error error _ => .error error

end Lowering

/-- The verified module of a program, or the first error. -/
def lower (config : LowerConfig) (program : List Expr) : Except LowerError Module :=
  match Lowering.lowerUnverified config program with
  | .error error => .error (.program error)
  | .ok m =>
    match m.verify with
    | .error error => .error (.verify error)
    | .ok _ => .ok m

end TwinLisp.Graph
