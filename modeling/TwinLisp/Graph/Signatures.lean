import TwinLisp.Graph.Module
import TwinLisp.Table

/-! Which unit a function name stands for, and how many arguments it takes. -/

namespace TwinLisp.Graph

/-- How a signature became known: from a definition, or from the first call. -/
inductive Origin
  | declared
  | inferred
deriving DecidableEq

structure Signature where
  unit : UnitId
  arity : Nat
  origin : Origin
deriving DecidableEq

/-- Signatures by function name. -/
abbrev Signatures := Table Signature

namespace Signatures

/-- Records the signature of a definition in place of an inferred one. -/
def declare (s : Signatures) (name : String) (unit : UnitId) (arity : Nat) : Signatures :=
  Table.insert s name ⟨unit, arity, .declared⟩

/-- Records the signature that a call suggests. -/
def infer (s : Signatures) (name : String) (unit : UnitId) (arity : Nat) : Signatures :=
  Table.insert s name ⟨unit, arity, .inferred⟩

end Signatures

end TwinLisp.Graph
