import TwinLisp.Graph.Module

/-! Modules that differ only in the numbers of their units. -/

namespace TwinLisp.Graph

/-- The operation with units numbered anew. -/
def Operation.renumber (r : UnitId → UnitId) : Operation → Operation
  | call callee args => call (r callee) args
  | operation => operation

def Instr.renumber (r : UnitId → UnitId) : Instr → Instr
  | define dst operation => define dst (operation.renumber r)
  | instr => instr

def Block.renumber (r : UnitId → UnitId) (k : Block) : Block :=
  { k with instrs := k.instrs.map (·.renumber r) }

def Body.renumber (r : UnitId → UnitId) (body : Body) : Body :=
  { body with blocks := body.blocks.map (·.renumber r) }

def CodeUnit.renumber (r : UnitId → UnitId) (unit : CodeUnit) : CodeUnit :=
  { unit with body := unit.body.map (·.renumber r) }

/-- One module is the other with its units numbered anew; `main` keeps its number, and names, arities,
bodies and strings stay. -/
structure Module.RenumberedBy (m : Module) (r : UnitId → UnitId) (m' : Module) : Prop where
  name : m'.name = m.name
  strings : m'.strings = m.strings
  main : m'.main = m.main
  fixed : r m.main = m.main
  injective : ∀ i < m.units.size, ∀ j < m.units.size, r i = r j → i = j
  onto : ∀ j < m'.units.size, ∃ i < m.units.size, r i = j
  units : ∀ (i : Nat) unit, m.units[i]? = some unit → m'.units[r i]? = some (unit.renumber r)

end TwinLisp.Graph
