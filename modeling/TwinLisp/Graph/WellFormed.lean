import TwinLisp.Graph.Module

/-! Well-formed modules: what the units of a module have to be like, whoever checks it. -/

namespace TwinLisp.Graph

namespace Instr

def result? : Instr → Option ValueId
  | define dst _ => some dst
  | _ => none

def allocated? : Instr → Option SlotId
  | alloca slot => some slot
  | _ => none

def slot? : Instr → Option SlotId
  | define _ (.load slot) | perform (.store slot _) => some slot
  | _ => none

def string? : Instr → Option StringId
  | perform (.printStr string) => some string
  | _ => none

end Instr

/-- The value that an operand reads, which is an integer. -/
def Operand.uses : Operand → List (ValueId × Ty)
  | const _ => []
  | value id => [(id, .i64)]

/-- The values that an operation reads where it stands; a phi reads on the edges instead. -/
def Operation.uses : Operation → List (ValueId × Ty)
  | load _ | phi _ => []
  | arith _ left right | compare _ left right => left.uses ++ right.uses
  | neg operand => operand.uses
  | extend operand => [(operand, .i1)]
  | call _ args => args.flatMap Operand.uses

def Effect.uses : Effect → List (ValueId × Ty)
  | store _ value | printInt value => value.uses
  | printStr _ => []

def Instr.uses : Instr → List (ValueId × Ty)
  | alloca _ => []
  | define _ operation => operation.uses
  | perform effect => effect.uses

def Terminator.uses : Terminator → List (ValueId × Ty)
  | ret value => value.uses
  | br _ => []
  | condBr cond _ _ => [(cond, .i1)]

namespace Body

def instrAt? (body : Body) (position index : Nat) : Option Instr :=
  (body.blocks[position]?).bind (·.instrs[index]?)

def results (body : Body) : List ValueId :=
  body.blocks.flatMap fun k => k.instrs.filterMap Instr.result?

def allocated (body : Body) : List SlotId :=
  body.blocks.flatMap fun k => k.instrs.filterMap Instr.allocated?

/-- Control can go from the block at one position to another. -/
def Leads (body : Body) (source target : BlockId) : Prop :=
  ∃ k t, body.blocks[source]? = some k ∧ k.terminator = some t ∧ target ∈ t.successors

/-- The value is a parameter, or the result of an instruction of another block or of an earlier
one of the same block. -/
def Available (body : Body) (value : ValueId) (position index : Nat) : Prop :=
  value ∈ body.params ∨ ∃ p i operation, body.instrAt? p i = some (.define value operation) ∧
    (p = position → i < index)

/-- The pairs of a phi are one for each block that leads to it, and carry integers that are
defined in the unit. -/
structure FitsPhi (body : Body) (position : Nat) (incoming : List (BlockId × Operand)) : Prop where
  once : (incoming.map (·.1)).Nodup
  preds : ∀ p, p ∈ incoming.map (·.1) ↔ body.Leads p position
  values : ∀ edge ∈ incoming, ∀ use ∈ edge.2.uses,
    use.1 ∈ body.params ++ body.results ∧ body.types[use.1]? = some use.2

/-- The instruction at an index of the block at a position fits its module and its body. -/
structure FitsInstr (m : Module) (body : Body) (position index : Nat) (instr : Instr) : Prop where
  slot : ∀ slot, instr.slot? = some slot → slot ∈ body.allocated
  uses : ∀ use ∈ instr.uses,
    body.Available use.1 position index ∧ body.types[use.1]? = some use.2
  result : ∀ value operation, instr = .define value operation →
    body.types[value]? = some operation.ty
  call : ∀ value callee args, instr = .define value (.call callee args) →
    ∃ unit, m.units[callee]? = some unit ∧ unit.arity = args.length
  string : ∀ string, instr = .perform (.printStr string) → string < m.strings.size
  phi : ∀ value incoming, instr = .define value (.phi incoming) → body.FitsPhi position incoming

/-- The blocks, definitions and allocations of a body are in order. -/
structure Structured (body : Body) : Prop where
  ids : ∀ position (k : Block), body.blocks[position]? = some k → k.id = position
  terminated : ∀ k ∈ body.blocks, k.terminator.isSome
  targets : ∀ source target, body.Leads source target → target < body.blocks.length
  allocated_entry : ∀ position index slot,
    body.instrAt? position index = some (.alloca slot) → position = 0
  allocated_lt : ∀ slot ∈ body.allocated, slot < body.slots.size
  allocated_nodup : body.allocated.Nodup
  defined_lt : ∀ value ∈ body.params ++ body.results, value < body.types.size
  defined_nodup : (body.params ++ body.results).Nodup

/-- The body fits its module and the arity of its unit. -/
structure WellFormed (m : Module) (arity : Nat) (body : Body) : Prop extends Structured body where
  blocks_ne_nil : body.blocks ≠ []
  params_length : body.params.length = arity
  phis_lead : ∀ position i j earlier later, i < j →
    body.instrAt? position i = some earlier → body.instrAt? position j = some later →
      later.isPhi → earlier.isPhi
  instrs : ∀ position index instr, body.instrAt? position index = some instr →
    body.FitsInstr m position index instr
  exits : ∀ position (k : Block) t, body.blocks[position]? = some k → k.terminator = some t →
    ∀ use ∈ t.uses,
      body.Available use.1 position k.instrs.length ∧ body.types[use.1]? = some use.2

end Body

/-- The main unit exists, unit names are distinct, and every unit has a body that is well-formed. -/
structure Module.WellFormed (m : Module) : Prop where
  main_lt : m.main < m.units.size
  names_nodup : (m.units.toList.map (·.name)).Nodup
  bodies : ∀ unit ∈ m.units.toList, ∃ body, unit.body = some body ∧ body.WellFormed m unit.arity

end TwinLisp.Graph
