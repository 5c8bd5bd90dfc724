import TwinLisp.Eval.Forms

/-! Evaluation of expressions and programs. -/

namespace TwinLisp.Eval

/-- How often a loop may run its body before it is stopped, if there is a limit. -/
structure Config where
  loopLimit : Option Nat := some 1000000
deriving DecidableEq

/-- Evaluates an expression; `fuel` bounds how deep expressions and calls nest and how often a
loop runs. -/
def evalWith (config : Config) : Nat → Expr → EvalM Value
  | 0, _ => throw .outOfFuel
  | fuel + 1, e => evalLayer (evalWith config fuel) config.loopLimit fuel e

def runWith (config : Config) (fuel : Nat) (program : List Expr) : EvalM Value :=
  evalBody (evalWith config fuel) program

/-- More fuel than any run can use up. -/
def ample : Nat := Nat.pow 2 62

def eval (config : Config) (e : Expr) : EvalM Value :=
  evalWith config ample e

def run (config : Config) (program : List Expr) : EvalM Value :=
  runWith config ample program

end TwinLisp.Eval
