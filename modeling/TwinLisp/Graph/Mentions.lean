import TwinLisp.Form

/-! The functions that the lowered code of a program defines and calls. -/

namespace TwinLisp.Graph

/-- A function with its number of parameters, or with the number of arguments it is called with. -/
inductive Mention
  | call (name : String) (arity : Nat)
  | defun (name : String) (arity : Nat)
deriving DecidableEq

namespace Mention

def name : Mention → String
  | call name _ | defun name _ => name

def arity : Mention → Nat
  | call _ arity | defun _ arity => arity

mutual

/-- What the code of an expression mentions: a `lambda` has no code, and quoted data are none. -/
def ofExpr : Expr → List Mention
  | .list (.ident head _ :: args) _ =>
    match Form.classify head with
    | some .lambda | some .quote => []
    | some .defun =>
      match args with
      | .ident name _ :: .list params _ :: body => .defun name params.length :: ofExprs body
      | _ => []
    | some _ => ofExprs args
    -- the arguments are lowered before the unit is looked up
    | none => ofExprs args ++ [.call head args.length]
  | .letIn bindings body _ => ofBindings bindings ++ ofExprs body
  | _ => []

def ofExprs : List Expr → List Mention
  | [] => []
  | e :: es => ofExpr e ++ ofExprs es

def ofBindings : List (LetBinding Expr) → List Mention
  | [] => []
  | ⟨_, init, _⟩ :: bs => ofExpr init ++ ofBindings bs

end

variable {head : String} {hs span : Span}

/-- Most forms mention what their operands mention. -/
theorem ofExpr_form {form : Form} {args : List Expr} (classified : Form.classify head = some form)
    (operands : form ≠ .lambda ∧ form ≠ .quote ∧ form ≠ .defun) :
    ofExpr (.list (.ident head hs :: args) span) = ofExprs args := by
  obtain ⟨noLambda, noQuote, noDefun⟩ := operands
  unfold ofExpr
  rw [classified]
  cases form with
  | lambda => exact absurd rfl noLambda
  | quote => exact absurd rfl noQuote
  | defun => exact absurd rfl noDefun
  | _ => rfl

theorem ofExpr_lambda {args : List Expr} (classified : Form.classify head = some .lambda) :
    ofExpr (.list (.ident head hs :: args) span) = [] := by
  unfold ofExpr
  rw [classified]

theorem ofExpr_defun {name : String} {ns ps : Span} {params body : List Expr}
    (classified : Form.classify head = some .defun) :
    ofExpr (.list (.ident head hs :: .ident name ns :: .list params ps :: body) span)
      = .defun name params.length :: ofExprs body := by
  unfold ofExpr
  rw [classified]

theorem ofExpr_call {args : List Expr} (noForm : Form.classify head = none) :
    ofExpr (.list (.ident head hs :: args) span) = ofExprs args ++ [.call head args.length] := by
  unfold ofExpr
  rw [noForm]

theorem ofBindings_eq (bindings : List (LetBinding Expr)) :
    ofBindings bindings = ofExprs (bindings.map (·.init)) := by
  induction bindings with
  | nil => rfl
  | cons b bindings ih =>
    rw [ofBindings, List.map_cons, ofExprs, ih]

end Mention

end TwinLisp.Graph
