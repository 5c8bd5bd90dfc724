import TwinLisp.Eval

/-!
Which functions a run defines. There is a second evaluator that stops before certain expressions; a
run has come to one of them if it is another run with that evaluator.
-/

namespace TwinLisp

def Expr.defines (name : String) : Expr → Bool
  | .list (.ident head _ :: .ident other _ :: _) _ =>
    Form.classify head == some .defun && other == name
  | _ => false

/-- The name is that of a global function, and no more than `made` functions were made before it. -/
def Environment.DefinesSince (made : Nat) (name : String) (env : Environment) : Prop :=
  ∃ f : Closure Value, env.globals.get? name = some ⟨.function f, .mutable⟩ ∧
    f.name = some name ∧ made ≤ f.stamp

/-- Evaluates like `evalWith`, but stops where an expression of the given kind is to be evaluated in
a world of that kind. -/
def Eval.evalUpTo (stop : Expr → World → Bool) (config : Config) : Nat → Expr → EvalM Value
  | 0, _ => throw .outOfFuel
  | fuel + 1, e => do
    if stop e (← get) then throw .outOfFuel
    else evalLayer (evalUpTo stop config fuel) config.loopLimit fuel e

theorem Eval.evalUpTo_never (config : Config) (fuel : Nat) :
    evalUpTo (fun _ _ => false) config fuel = evalWith config fuel := by
  induction fuel with
  | zero => rfl
  | succ fuel ih =>
    funext e
    exact congrArg (evalLayer · config.loopLimit fuel e) ih

end TwinLisp
