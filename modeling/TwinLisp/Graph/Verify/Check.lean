import TwinLisp.Graph.Verify.Collect

/-! The second pass over a body: operands, types, phis and calls. -/

namespace TwinLisp.Graph

/-- A body of a module together with what the first pass found out. -/
structure Checker where
  module : Module
  body : Body
  facts : Facts

namespace Checker

def checkTy (c : Checker) (value : ValueId) (expected : Ty) : Except Defect PUnit :=
  match c.body.types[value]? with
  | none => .error (.undefinedValue value)
  | some found => require (found = expected) (.typeMismatch value expected found)

def siteOf (c : Checker) (value : ValueId) : Except Defect Site :=
  match c.facts.sites[value]? with
  | some (some site) => .ok site
  | _ => .error (.undefinedValue value)

/-- Whether a definition comes too late for a use at `index` in `block`. -/
def isLate (site : Site) (block : BlockId) (index : Nat) : Bool :=
  match site with
  | .param => false
  -- only within one block: whether another block comes before is not looked at
  | .instr defBlock defIndex => defBlock = block && index ≤ defIndex

/-- The value is defined, in the same block before `index`, and has the expected type. -/
def checkValue (c : Checker) (block : BlockId) (index : Nat) (value : ValueId) (expected : Ty) :
    Except Defect PUnit := do
  let site ← c.siteOf value
  require (!isLate site block index) (Defect.useBeforeDef value)
  c.checkTy value expected

/-- The operand is a constant or an integer that is defined before `index`. -/
def checkOperand (c : Checker) (block : BlockId) (index : Nat) : Operand → Except Defect PUnit
  | .const _ => .ok ⟨⟩
  | .value value => c.checkValue block index value .i64

def checkSlot (c : Checker) (slot : SlotId) : Except Defect PUnit :=
  require (c.facts.allocated.contains slot) (.invalidSlot slot)

def checkCallee (c : Checker) (callee : UnitId) (args : Nat) : Except Defect PUnit :=
  match c.module.units[callee]? with
  | none => .error (.invalidCallee callee)
  | some unit => require (unit.arity = args) (.callArity unit.name unit.arity args)

/-- The operand of a phi is a constant or an integer that is defined somewhere. -/
def checkIncoming (c : Checker) : Operand → Except Defect PUnit
  | .const _ => .ok ⟨⟩
  | .value value => do
    let _ ← c.siteOf value
    c.checkTy value .i64

/-- Each pair names a block that leads here and has not been named. -/
def checkEdges (c : Checker) (preds covered : List BlockId) :
    List (BlockId × Operand) → Except Defect PUnit
  -- those named are different blocks that lead here, so as many of them are all of them
  | [] => require (covered.length = preds.length) (.phiIncoming .missing)
  | (pred, operand) :: rest => do
    require (preds.contains pred) (Defect.phiIncoming .notPredecessor)
    require (!covered.contains pred) (Defect.phiIncoming .duplicate)
    c.checkIncoming operand
    c.checkEdges preds (pred :: covered) rest

def checkOperation (c : Checker) (block : BlockId) (index : Nat) :
    Operation → Except Defect PUnit
  | .load slot => c.checkSlot slot
  | .arith _ left right | .compare _ left right => do
    c.checkOperand block index left
    c.checkOperand block index right
  | .neg operand => c.checkOperand block index operand
  | .extend operand => c.checkValue block index operand .i1
  | .call callee args => do
    c.checkCallee callee args.length
    args.forM (c.checkOperand block index)
  | .phi incoming => c.checkEdges ((c.facts.preds[block]?).getD []) [] incoming

def checkEffect (c : Checker) (block : BlockId) (index : Nat) : Effect → Except Defect PUnit
  | .store slot value => do
    c.checkSlot slot
    c.checkOperand block index value
  | .printInt value => c.checkOperand block index value
  | .printStr string => require (string < c.module.strings.size) (.invalidString string)

def checkInstr (c : Checker) (block : BlockId) (index : Nat) : Instr → Except Defect PUnit
  -- the first pass has seen to allocations
  | .alloca _ => .ok ⟨⟩
  | .define dst operation => do
    c.checkTy dst operation.ty
    c.checkOperation block index operation
  | .perform effect => c.checkEffect block index effect

/-- The instructions from `index` on; `leading` says that only phis came before. -/
def checkInstrs (c : Checker) (block : BlockId) (index : Nat) (leading : Bool) :
    List Instr → Except Defect PUnit
  | [] => .ok ⟨⟩
  | instr :: rest => do
    require (!instr.isPhi || leading) Defect.misplacedPhi
    c.checkInstr block index instr
    c.checkInstrs block (index + 1) (leading && instr.isPhi) rest

/-- The end of a block, which comes after all of its instructions. -/
def checkTerminator (c : Checker) (block : Block) : Except Defect PUnit :=
  match block.terminator with
  | some (.ret value) => c.checkOperand block.id block.instrs.length value
  | some (.condBr cond _ _) => c.checkValue block.id block.instrs.length cond .i1
  | some (.br _) | none => .ok ⟨⟩

def checkBlock (c : Checker) (block : Block) : Except Defect PUnit := do
  c.checkInstrs block.id 0 true block.instrs
  c.checkTerminator block

end Checker

end TwinLisp.Graph
