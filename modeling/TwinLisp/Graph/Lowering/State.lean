import TwinLisp.Fault
import TwinLisp.Graph.Builder
import TwinLisp.Graph.Signatures

/-! What lowering works on: the module, the signatures and the unit under construction. -/

namespace TwinLisp.Graph.Lowering

/-- The unit under construction: scopes map variables to slots, `locals` innermost first, and
`base` is the scope of the whole unit. -/
structure UnitState where
  unit : UnitId
  builder : Builder
  locals : List (Table SlotId) := []
  base : Table SlotId := []

namespace UnitState

def new (unit : UnitId) (arity : Nat) : UnitState :=
  { unit, builder := .new arity }

def lookup (u : UnitState) (name : String) : Option SlotId :=
  (u.locals.findSome? (·.get? name)).or (u.base.get? name)

def isFrozen (u : UnitState) (slot : SlotId) : Bool :=
  (u.builder.slot? slot).any (·.frozen)

/-- Makes a variable known in the whole unit. -/
def bindOuter (u : UnitState) (name : String) (slot : SlotId) : UnitState :=
  { u with base := u.base.insert name slot }

/-- Makes a variable known in the innermost scope. -/
def bindInner (u : UnitState) (name : String) (slot : SlotId) : UnitState :=
  match u.locals with
  | [] => u.bindOuter name slot
  | scope :: outer => { u with locals := scope.insert name slot :: outer }

def pushScope (u : UnitState) : UnitState :=
  { u with locals := [] :: u.locals }

def popScope (u : UnitState) : UnitState :=
  { u with locals := u.locals.tail }

end UnitState

/-- Lowering in progress; `inProgress` are the units whose bodies are not finished,
innermost first. -/
structure State where
  module : Module
  signatures : Signatures
  current : UnitState
  inProgress : List UnitId

namespace State

/-- A module with an empty unit `main`. -/
def initial (moduleName : String) : State :=
  let (main, module) := ({ name := moduleName } : Module).declareUnit "main" 0
  ⟨{ module with main }, [], .new main 0, [main]⟩

end State

abbrev LowerM := EStateM ProgramError State

def fail {α : Type} (fault : Fault) (span : Span) : LowerM α :=
  throw ⟨fault, span⟩

def modifyUnit (f : UnitState → UnitState) : LowerM Unit :=
  modify fun s => { s with current := f s.current }

def modifyBuilder (f : Builder → Builder) : LowerM Unit :=
  modifyUnit fun u => { u with builder := f u.builder }

/-- Changes the body under construction and gives what was added to it. -/
def build {α : Type} (f : Builder → α × Builder) : LowerM α :=
  modifyGet fun s =>
    let (a, builder) := f s.current.builder
    (a, { s with current := { s.current with builder } })

/-- Adds an operation and gives its value as an operand. -/
def emit (operation : Operation) : LowerM Operand :=
  return .value (← build (·.emit operation))

def perform (effect : Effect) : LowerM Unit :=
  modifyBuilder (·.perform effect)

def newBlock : LowerM BlockId :=
  build (·.newBlock)

def currentBlock : LowerM BlockId :=
  return (← get).current.builder.current

def positionAt (block : BlockId) : LowerM Unit :=
  modifyBuilder (·.positionAt block)

def terminate (t : Terminator) : LowerM Unit :=
  modifyBuilder (·.terminate t)

/-- Adds a slot that holds `value` and makes it known by `bind`. -/
def newVariable (bind : UnitState → String → SlotId → UnitState) (name : String) (frozen : Bool)
    (value : Operand) : LowerM Unit := do
  let slot ← build (·.alloca name frozen)
  modifyUnit (bind · name slot)
  perform (.store slot value)

end TwinLisp.Graph.Lowering
