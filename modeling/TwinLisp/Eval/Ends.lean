import TwinLisp.Eval

/-! How a program ends that has as much fuel as it needs. -/

namespace TwinLisp.Eval

def World.lines (w : World) : List String :=
  w.output.lines.toList

/-- The first limit stops a loop no later than the second one does; `none` stops no loop. -/
def LimitLe : Option Nat → Option Nat → Prop
  | _, none => True
  | none, some _ => False
  | some m, some n => m ≤ n

/-- The run was not stopped for want of fuel. -/
def Finished {α : Type} (result : EStateM.Result Halt World α) : Prop :=
  ∀ w, result ≠ .error .outOfFuel w

/-- The program ends so, with a value or with an error, if nothing but its own course stops it. -/
def Ends (config : Config) (program : List Expr) (w : World)
    (result : EStateM.Result Halt World Value) : Prop :=
  Finished result ∧ ∃ fuel, runWith config fuel program w = result

/-- The run was stopped because a loop reached its limit. -/
def LimitReached {α : Type} (result : EStateM.Result Halt World α) : Prop :=
  ∃ n span w, result = .error (.failed ⟨.loopLimit n, span⟩) w

def finalWorld {α : Type} : EStateM.Result Halt World α → World
  | .ok _ w => w
  | .error _ w => w

end TwinLisp.Eval
