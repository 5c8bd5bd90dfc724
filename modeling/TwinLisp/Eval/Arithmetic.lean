import TwinLisp.Eval.Ends
import TwinLisp.Eval.Stamps

/-! The integers that operands yield, and exact arithmetic to compare results with. -/

namespace TwinLisp

def Expr.arith (op : ArithOp) (hs : Span) (operands : List Expr) (span : Span) : Expr :=
  .list (.ident op.symbol hs :: operands) span

namespace Eval

/-- The expression ends with a value that is an integer, or text that spells one. -/
def Yields (config : Config) (e : Expr) (w : World) (n : Int64) (u : World) : Prop :=
  ∃ v, Ends config [e] w (.ok v u) ∧ v.toInt64 = .ok n

/-- The expressions, evaluated one after the other, yield these integers. -/
inductive YieldAll (config : Config) : List Expr → World → List Int64 → World → Prop
  | nil {w} : YieldAll config [] w [] w
  | cons {e es n ns w u u'} (first : Yields config e w n u) (rest : YieldAll config es u ns u') :
    YieldAll config (e :: es) w (n :: ns) u'

/-- The expression yields an integer and changes nothing on its way, except that it may make functions. -/
def SideEffectFree (config : Config) (w : World) (e : Expr) : Prop :=
  ∃ n u, Yields config e w n u ∧ w.Twin u

/-- The exact quotient, cut toward zero. Only one quotient of 64-bit integers does not fit 64 bits;
it wraps around to the dividend. -/
def quotient (a b : Int) : Int :=
  if a = Int64.minValue.toInt ∧ b = -1 then a else a.tdiv b

end Eval

end TwinLisp
