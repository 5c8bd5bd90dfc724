import Mathlib.Logic.Function.Basic
import Mathlib.Logic.Relation
import TwinLisp.Graph.WellFormed
import TwinLisp.Text.Decimal

/-!
Execution of compiled programs, one instruction at a time. Integers wrap around, comparisons are
signed, slots belong to one call of a unit, and a phi selects by the block that control came from.
Where no step is given, execution is stuck: on a zero divisor, on what has not been defined or stored
yet, and in malformed code.
-/

namespace TwinLisp.Graph.Exec

/-- What a value of a unit is while the unit runs. -/
inductive Datum
  | truth (b : Bool)
  | int (n : Int64)
deriving DecidableEq

/-- The values that have been defined so far. -/
abbrev Values := ValueId → Option Datum

def Values.int? (values : Values) : Operand → Option Int64
  | .const n => some n
  | .value id =>
    match values id with
    | some (.int n) => some n
    | _ => none

/-- A call of a unit in progress: `block` and `index` are where it is, and `arrival` is the block that
it came from with the values that were defined there. -/
structure Activation where
  body : Body
  values : Values
  block : BlockId := 0
  index : Nat := 0
  slots : SlotId → Option Int64 := fun _ => none
  arrival : Option (BlockId × Values) := none

namespace Activation

/-- The start of a unit; arguments are the values of its parameters. -/
def enter (body : Body) (args : List Int64) : Activation :=
  { body, values := fun id => ((body.params.zip args).lookup id).map .int }

/-- The instruction that is next, unless the block is at its end. -/
def instr? (a : Activation) : Option Instr :=
  a.body.instrAt? a.block a.index

def terminator? (a : Activation) : Option Terminator :=
  (a.body.blocks[a.block]?).bind (·.terminator)

def next (a : Activation) : Activation :=
  { a with index := a.index + 1 }

def define (a : Activation) (dst : ValueId) (datum : Datum) : Activation :=
  { a.next with values := Function.update a.values dst (some datum) }

def goto (a : Activation) (target : BlockId) : Activation :=
  { a with block := target, index := 0, arrival := some (a.block, a.values) }

/-- What an operation yields; calls are not among them. -/
def compute (a : Activation) : Operation → Option Datum
  | .load slot => (a.slots slot).map .int
  | .arith op left right => do
    return .int (← op.step? (← a.values.int? left) (← a.values.int? right))
  | .neg operand => do return .int (-(← a.values.int? operand))
  | .compare op left right => do
    return .truth (op.holds (← a.values.int? left) (← a.values.int? right))
  | .extend operand =>
    match a.values operand with
    | some (.truth b) => some (.int (if b then 1 else 0))
    | _ => none
  | .phi incoming => do
    -- values are those at the end of the block that control came from, before this one defines any
    let (source, values) ← a.arrival
    return .int (← values.int? (← incoming.lookup source))
  | .call .. => none

/-- Stores or prints; the lines are those that are printed. -/
def perform (m : Module) (a : Activation) : Effect → Option (Activation × List String)
  | .store slot value => do
    return ({ a.next with slots := Function.update a.slots slot (some (← a.values.int? value)) }, [])
  | .printInt value => do return (a.next, [Text.Decimal.text (← a.values.int? value)])
  | .printStr string => do return (a.next, [← m.strings[string]?])

/-- Takes the result of the call that it waits for. -/
def resume (a : Activation) (result : Int64) : Option Activation :=
  match a.instr? with
  | some (.define dst (.call ..)) => some (a.define dst (.int result))
  | _ => none

end Activation

/-- A program in progress, with the calls that wait for the current one, innermost first; or its end. -/
inductive Machine
  | running (current : Activation) (callers : List Activation) (printed : List String)
  | finished (result : Int64) (printed : List String)

/-- The end of a block. -/
def leave (a : Activation) (callers : List Activation) (printed : List String) :
    Terminator → Option Machine
  | .ret value => do
    let result ← a.values.int? value
    match callers with
    | [] => return .finished result printed
    -- the caller has to be waiting for a result
    | caller :: callers => return .running (← caller.resume result) callers printed
  | .br target => some (.running (a.goto target) callers printed)
  | .condBr cond yes no =>
    match a.values cond with
    | some (.truth b) => some (.running (a.goto (if b then yes else no)) callers printed)
    | _ => none

def run (m : Module) (a : Activation) (callers : List Activation) (printed : List String) :
    Instr → Option Machine
  | .alloca slot =>
    -- whatever was in the slot is gone
    some (.running { a.next with slots := Function.update a.slots slot none } callers printed)
  | .define _ (.call callee args) => do
    let inputs ← args.mapM a.values.int?
    let body ← (m.units[callee]?).bind (·.body)
    -- the caller waits in front of the call, and is resumed behind it
    return .running (.enter body inputs) (a :: callers) printed
  | .define dst operation => do
    return .running (a.define dst (← a.compute operation)) callers printed
  | .perform effect => do
    let (a, lines) ← a.perform m effect
    return .running a callers (printed ++ lines)

def step (m : Module) : Machine → Option Machine
  | .finished .. => none
  | .running a callers printed =>
    match a.instr? with
    | some instr => run m a callers printed instr
    | none => a.terminator?.bind (leave a callers printed)

def Steps (m : Module) : Machine → Machine → Prop :=
  Relation.ReflTransGen fun s t => step m s = some t

end Exec

/-- The main unit of the program runs to its end: what it returns and the lines that it prints. -/
def Module.Executes (m : Module) (result : Int64) (lines : List String) : Prop :=
  ∃ x body, m.units[m.main]? = some x ∧ x.body = some body ∧
    Exec.Steps m (.running (.enter body []) [] []) (.finished result lines)

end TwinLisp.Graph
