import Mathlib.Logic.Relation
import TwinLisp.Graph.WellFormed

/-! Connected bodies: control can come to every block, and from every block to the only exit. -/

namespace TwinLisp.Graph.Body

/-- Control can come from one block to another, by any number of steps. -/
def Reaches (body : Body) : BlockId → BlockId → Prop := Relation.ReflTransGen body.Leads

def Returns (body : Body) (position : BlockId) : Prop :=
  ∃ k value, body.blocks[position]? = some k ∧ k.terminator = some (.ret value)

/-- The blocks of a body hang together: none leads back to the first, from which control can come to
each, and a single one returns, to which control can come from each. -/
structure Connected (body : Body) : Prop where
  entry : ∀ p, ¬body.Leads p 0
  reachable : ∀ p < body.blocks.length, body.Reaches 0 p
  exit : ∃ last, (∀ p, body.Returns p ↔ p = last) ∧
    ∀ p < body.blocks.length, body.Reaches p last

end TwinLisp.Graph.Body
