import TwinLisp.Graph.Text

/-! What can be wrong with the structure of a module. -/

namespace TwinLisp.Graph

/-- Why the values that a phi selects from do not fit the blocks that lead to it. -/
inductive PhiFault
  | notPredecessor
  | duplicate
  | missing
deriving DecidableEq

inductive Defect
  | idMismatch
  | missingTerminator
  | allocaOutsideEntry
  | undefinedValue (value : ValueId)
  | useBeforeDef (value : ValueId)
  | redefined (value : ValueId)
  | typeMismatch (value : ValueId) (expected found : Ty)
  | invalidTarget (target : BlockId)
  | misplacedPhi
  | phiIncoming (fault : PhiFault)
  | invalidCallee (callee : UnitId)
  | callArity (callee : String) (expected got : Nat)
  | invalidSlot (slot : SlotId)
  | duplicateAlloca (slot : SlotId)
  | invalidString (string : StringId)
deriving DecidableEq

/-- The first thing that is wrong with a module. -/
inductive VerifyError
  | missingMain (main : UnitId)
  | duplicateUnit (name : String)
  | missingBody (unit : String)
  | noBlocks (unit : String)
  | paramCount (unit : String) (expected got : Nat)
  | atBlock (unit : String) (block : BlockId) (defect : Defect)
deriving DecidableEq

namespace PhiFault

def message : PhiFault → String
  | notPredecessor => "incoming edge from a non-predecessor"
  | duplicate => "duplicate incoming edge"
  | missing => "a predecessor has no incoming value"

end PhiFault

namespace Defect

private def tyName : Ty → String
  | .i1 => "I1"
  | .i64 => "I64"

def message : Defect → String
  | idMismatch => "block id does not match its position"
  | missingTerminator => "missing terminator"
  | allocaOutsideEntry => "alloca outside the entry block"
  | undefinedValue value => valueText value ++ " is used but never defined"
  | useBeforeDef value => valueText value ++ " is used before its definition"
  | redefined value => valueText value ++ " is defined more than once"
  | typeMismatch value expected found =>
    valueText value ++ " has type " ++ tyName found ++ ", expected " ++ tyName expected
  | invalidTarget target => "branch to nonexistent " ++ blockText target
  | misplacedPhi => "phi after a non-phi instruction"
  | phiIncoming fault => "phi incoming edges do not match predecessors: " ++ fault.message
  | invalidCallee callee => "call to nonexistent unit " ++ unitText callee
  | callArity callee expected got =>
    "call to `" ++ callee ++ "` passes " ++ toString got ++ " argument(s), expected " ++
      toString expected
  | invalidSlot slot => "reference to nonexistent slot " ++ slotText slot
  | duplicateAlloca slot => "slot " ++ slotText slot ++ " is allocated more than once"
  | invalidString string => "reference to nonexistent string " ++ stringText string

end Defect

namespace VerifyError

def message : VerifyError → String
  | missingMain main => "module has no entry unit " ++ unitText main
  | duplicateUnit name => "unit `" ++ name ++ "` is defined more than once"
  | missingBody unit => "unit `" ++ unit ++ "` is declared but never defined"
  | noBlocks unit => "unit `" ++ unit ++ "` has an empty body"
  | paramCount unit expected got =>
    "unit `" ++ unit ++ "` declares " ++ toString expected ++
      " parameter(s) but its body has " ++ toString got
  | atBlock unit block defect => unit ++ "/" ++ blockText block ++ ": " ++ defect.message

end VerifyError

end TwinLisp.Graph
