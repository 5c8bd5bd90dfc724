import TwinLisp.Operator

/-! Compiled programs: units of basic blocks over 64-bit values and stack slots. -/

namespace TwinLisp.Graph

/-- A value of one unit: a parameter, or the result of an instruction. -/
abbrev ValueId := Nat

/-- A basic block of one unit; block 0 is where the unit starts. -/
abbrev BlockId := Nat

abbrev SlotId := Nat

abbrev UnitId := Nat

abbrev StringId := Nat

/-- The types of values: truth values come from comparisons, all else is an integer. -/
inductive Ty
  | i1
  | i64
deriving DecidableEq

/-- What an instruction works on; constants are integers. -/
inductive Operand
  | const (n : Int64)
  | value (id : ValueId)
deriving DecidableEq

inductive Operation
  | load (slot : SlotId)
  | arith (op : ArithOp) (left right : Operand)
  | neg (operand : Operand)
  | compare (op : CmpOp) (left right : Operand)
  | extend (operand : ValueId)
  | call (callee : UnitId) (args : List Operand)
  | phi (incoming : List (BlockId × Operand))
deriving DecidableEq

inductive Effect
  | store (slot : SlotId) (value : Operand)
  | printInt (value : Operand)
  | printStr (string : StringId)
deriving DecidableEq

inductive Instr
  | alloca (slot : SlotId)
  | define (dst : ValueId) (operation : Operation)
  | perform (effect : Effect)
deriving DecidableEq

namespace Operation

def ty : Operation → Ty
  | compare .. => .i1
  | _ => .i64

end Operation

namespace Instr

/-- Whether the instruction selects a value by the block that control came from. -/
def isPhi : Instr → Bool
  | define _ (.phi _) => true
  | _ => false

end Instr

inductive Terminator
  | ret (value : Operand)
  | br (target : BlockId)
  | condBr (cond : ValueId) (yes no : BlockId)
deriving DecidableEq

namespace Terminator

def successors : Terminator → List BlockId
  | ret _ => []
  | br target => [target]
  | condBr _ yes no => [yes, no]

end Terminator

/-- Instructions that run one after the other; only a malformed block has no terminator. -/
structure Block where
  id : BlockId
  instrs : List Instr
  terminator : Option Terminator
deriving DecidableEq

/-- The variable that a slot holds, and whether it is a constant. -/
structure Slot where
  name : String
  frozen : Bool
deriving DecidableEq

/-- The code of a unit: `types` has the type of every value. -/
structure Body where
  params : List ValueId
  blocks : List Block
  types : Array Ty
  slots : Array Slot
deriving DecidableEq

/-- A function that takes and returns integers; without a body it is only declared. -/
structure CodeUnit where
  name : String
  arity : Nat
  body : Option Body
deriving DecidableEq

/-- Units and string constants; `main` is the unit that starts the program. -/
structure Module where
  name : String
  units : Array CodeUnit := #[]
  strings : Array String := #[]
  main : UnitId := 0
deriving DecidableEq

namespace Module

/-- Adds a unit that has no body yet. -/
def declareUnit (m : Module) (name : String) (arity : Nat) : UnitId × Module :=
  (m.units.size, { m with units := m.units.push ⟨name, arity, none⟩ })

def setArity (m : Module) (id : UnitId) (arity : Nat) : Module :=
  { m with units := m.units.modify id ({ · with arity }) }

def setBody (m : Module) (id : UnitId) (body : Body) : Module :=
  { m with units := m.units.modify id ({ · with body := some body }) }

def isDefined (m : Module) (id : UnitId) : Bool :=
  (m.units[id]?).any (·.body.isSome)

/-- The constant that holds a text; equal texts share one. -/
def internString (m : Module) (text : String) : StringId × Module :=
  match m.strings.findIdx? (· == text) with
  | some id => (id, m)
  | none => (m.strings.size, { m with strings := m.strings.push text })

end Module

end TwinLisp.Graph
