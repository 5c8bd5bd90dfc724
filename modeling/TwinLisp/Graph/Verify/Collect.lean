import TwinLisp.Graph.Verify.Error

/-! The first pass over a body: where values are defined, which slots are allocated, and which
blocks lead to which. -/

namespace TwinLisp.Graph

/-- Where a value is defined: on entry, or by an instruction of a block. -/
inductive Site
  | param
  | instr (block : BlockId) (index : Nat)
deriving DecidableEq

/-- What the first pass finds out: by value, by block, and as a list. -/
structure Facts where
  sites : Array (Option Site)
  preds : Array (List BlockId)
  allocated : List SlotId

/-- Goes on only where the condition holds. -/
def require {ε : Type} (ok : Bool) (error : ε) : Except ε PUnit :=
  if ok then .ok ⟨⟩ else .error error

namespace Facts

def none (body : Body) : Facts :=
  -- the size of a table is what later tells unknown numbers from those without an entry
  ⟨Array.replicate body.types.size .none, Array.replicate body.blocks.length [], []⟩

/-- Records the definition of a value, which has to be its first. -/
def define (facts : Facts) (value : ValueId) (site : Site) : Except Defect Facts :=
  match facts.sites[value]? with
  | .none => .error (.undefinedValue value)
  | some (some _) => .error (.redefined value)
  | some .none => .ok { facts with sites := facts.sites.set! value (some site) }

/-- Records the allocation of a slot, which has to be its first and in the first block. -/
def allocate (facts : Facts) (body : Body) (slot : SlotId) (block : BlockId) :
    Except Defect Facts := do
  require (block = 0) Defect.allocaOutsideEntry
  require (slot < body.slots.size) (Defect.invalidSlot slot)
  require (!facts.allocated.contains slot) (Defect.duplicateAlloca slot)
  return { facts with allocated := slot :: facts.allocated }

def addInstr (facts : Facts) (body : Body) (block : BlockId) (instr : Instr) (index : Nat) :
    Except Defect Facts :=
  match instr with
  | .alloca slot => facts.allocate body slot block
  | .define dst _ => facts.define dst (.instr block index)
  | .perform _ => .ok facts

def addEdge (facts : Facts) (source target : BlockId) : Except Defect Facts :=
  match facts.preds[target]? with
  | .none => .error (.invalidTarget target)
  | some preds =>
    -- both ways out of a block may lead to the same one, which counts once
    if preds.contains source then .ok facts
    else .ok { facts with preds := facts.preds.set! target (preds ++ [source]) }

def addBlock (facts : Facts) (body : Body) (block : Block) (position : Nat) :
    Except Defect Facts := do
  -- from here on a number of a block stands for its position as well
  require (block.id = position) Defect.idMismatch
  match block.terminator with
  | .none => .error .missingTerminator
  | some terminator =>
    let facts ← block.instrs.zipIdx.foldlM
      (fun facts (instr, index) => facts.addInstr body block.id instr index) facts
    terminator.successors.foldlM (fun facts target => facts.addEdge block.id target) facts

end Facts

def atBlock {α : Type} (unit : String) (block : BlockId) (check : Except Defect α) :
    Except VerifyError α :=
  check.mapError (.atBlock unit block)

def Body.collect (body : Body) (unit : String) : Except VerifyError Facts := do
  let facts ← body.params.foldlM
    (fun facts param => atBlock unit 0 (facts.define param .param)) (Facts.none body)
  body.blocks.zipIdx.foldlM
    (fun facts (block, position) => atBlock unit block.id (facts.addBlock body block position))
    facts

end TwinLisp.Graph
