import TwinLisp.Graph.Module
import TwinLisp.Text.Decimal

/-! How the parts of a module are written. -/

namespace TwinLisp.Graph

/-- A value is written `%v0`, `%v1`, and so on. -/
def valueText (id : ValueId) : String :=
  "%v" ++ toString id

def blockText (id : BlockId) : String :=
  "bb" ++ toString id

def slotText (id : SlotId) : String :=
  "%s" ++ toString id

def unitText (id : UnitId) : String :=
  "u" ++ toString id

def stringText (id : StringId) : String :=
  "@.str." ++ toString id

def operandText : Operand → String
  | .const n => Text.Decimal.text n
  | .value id => valueText id

end TwinLisp.Graph
