import TwinLisp.Graph.Verify.Check

/-! Verification: whether a module is well-formed, and what is wrong with it first. -/

namespace TwinLisp.Graph

def Module.verifyUnit (m : Module) (unit : CodeUnit) : Except VerifyError PUnit :=
  match unit.body with
  | none => .error (.missingBody unit.name)
  | some body => do
    require (!body.blocks.isEmpty) (VerifyError.noBlocks unit.name)
    require (body.params.length = unit.arity)
      (VerifyError.paramCount unit.name unit.arity body.params.length)
    let facts ← body.collect unit.name
    body.blocks.forM fun block =>
      atBlock unit.name block.id (Checker.checkBlock ⟨m, body, facts⟩ block)

/-- No name is in the list twice, nor in `seen`. -/
def checkDistinct (seen : List String) : List String → Except VerifyError PUnit
  | [] => .ok ⟨⟩
  | name :: rest => do
    require (!seen.contains name) (VerifyError.duplicateUnit name)
    checkDistinct (name :: seen) rest

def Module.verify (m : Module) : Except VerifyError PUnit := do
  require (m.main < m.units.size) (VerifyError.missingMain m.main)
  checkDistinct [] (m.units.toList.map (·.name))
  m.units.toList.forM m.verifyUnit

end TwinLisp.Graph
