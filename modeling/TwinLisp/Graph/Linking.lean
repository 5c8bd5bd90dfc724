import TwinLisp.Graph.Mentions
import TwinLisp.Graph.Verify.Error

/-! What can keep the module of a program from being verified: the functions that it calls. -/

namespace TwinLisp.Graph

namespace Mention

/-- The unit that starts the program is defined or called like a function. -/
def NamesMain (mentions : List Mention) : Prop :=
  ∃ mention ∈ mentions, mention.name = "main"

/-- A function is called that is not defined. -/
def Undefined (mentions : List Mention) : Prop :=
  ∃ name arity, .call name arity ∈ mentions ∧ ∀ n, .defun name n ∉ mentions

/-- A function has the same number of arguments wherever it is mentioned. -/
def Agree (mentions : List Mention) : Prop :=
  ∀ mention ∈ mentions, ∀ other ∈ mentions, mention.name = other.name → mention.arity = other.arity

/-- The functions that are called can be linked: they are defined, with the number of arguments that
they are called with, and none is taken for the unit that starts the program. -/
structure Linked (mentions : List Mention) : Prop where
  noMain : ¬NamesMain mentions
  defined : ¬Undefined mentions
  agree : Agree mentions

end Mention

namespace Module

def Has (m : Module) (i : Instr) : Prop :=
  ∃ (j : Nat) (x : CodeUnit) (body : Body) (k : Block), m.units[j]? = some x ∧
    x.body = some body ∧ k ∈ body.blocks ∧ i ∈ k.instrs

/-- A call passes a number of arguments that the unit does not take. -/
def Miscalls (m : Module) : Prop :=
  ∃ dst callee args x, m.Has (.define dst (.call callee args)) ∧ m.units[callee]? = some x ∧
    x.arity ≠ args.length

end Module

def Defect.IsCallArity (defect : Defect) : Prop :=
  ∃ callee expected got, defect = .callArity callee expected got

/-- A unit has no body, or a call passes a wrong number of arguments. -/
def VerifyError.IsLink (error : VerifyError) : Prop :=
  (∃ unit, error = .missingBody unit) ∨
    ∃ unit block defect, error = .atBlock unit block defect ∧ defect.IsCallArity

end TwinLisp.Graph
