import TwinLisp.Form

/-! Programs that run from their first expression to their last one, without branches and calls. -/

namespace TwinLisp

/-- Forms that evaluate their parts one after the other. Division is not among them, as it may fail
on what is known only when the program runs. -/
def Form.isStraight : Form → Bool
  | .set | .const | .not | .arith .add | .arith .sub | .arith .mul | .compare _ => true
  | _ => false

/-- An expression of straight-line code; forms may be misused. The only strings are those that are
printed at once, and `nil` is not named. -/
inductive Expr.StraightLine : Expr → Prop
  | int {n span} : StraightLine (.int n span)
  | ident {name span} (named : name ≠ "nil") : StraightLine (.ident name span)
  | empty {span} : StraightLine (.list [] span)
  | print {head hs args span} (form : Form.classify head = some .print)
    (parts : ∀ e ∈ args, (∀ text at', e ≠ .str text at') → StraightLine e) :
    StraightLine (.list (.ident head hs :: args) span)
  | form {head hs form args span} (classified : Form.classify head = some form)
    (straight : form.isStraight) (parts : ∀ e ∈ args, StraightLine e) :
    StraightLine (.list (.ident head hs :: args) span)
  | letIn {bindings body span} (named : ∀ b ∈ bindings, b.name ≠ "nil")
    (inits : ∀ b ∈ bindings, StraightLine b.init) (inner : ∀ e ∈ body, StraightLine e) :
    StraightLine (.letIn bindings body span)

def StraightLineProgram (program : List Expr) : Prop :=
  ∀ e ∈ program, e.StraightLine

end TwinLisp
