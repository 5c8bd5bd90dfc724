import TwinLisp.Graph.Exec

/-!
The types of values: where a value comes from in the code of a body, and what a running unit reads
values as.
-/

namespace TwinLisp.Graph

namespace Body

/-- The value is the result of the operation somewhere in the body. -/
def Yields (body : Body) (value : ValueId) (operation : Operation) : Prop :=
  ∃ position index, body.instrAt? position index = some (.define value operation)

def Compared (body : Body) (value : ValueId) : Prop :=
  ∃ op left right, body.Yields value (.compare op left right)

/-- The value is a parameter, and the body has it down as a truth value. -/
def TruthParam (body : Body) (value : ValueId) : Prop :=
  value ∈ body.params ∧ body.types[value]? = some .i1

end Body

namespace Exec

def Datum.ty : Datum → Ty
  | truth _ => .i1
  | int _ => .i64

/-- What runs next reads the value as one of the type, and this is what it finds: an instruction or
the end of a block where it stands, a phi at the end of the block that control came from. -/
inductive Activation.Reads (a : Activation) : ValueId → Ty → Option Datum → Prop
  | instr {instr use} (next : a.instr? = some instr) (mem : use ∈ instr.uses) :
    a.Reads use.1 use.2 (a.values use.1)
  | exit {t use} (done : a.instr? = none) (ends : a.terminator? = some t) (mem : use ∈ t.uses) :
    a.Reads use.1 use.2 (a.values use.1)
  | edge {dst incoming source values operand use}
    (next : a.instr? = some (.define dst (.phi incoming))) (came : a.arrival = some (source, values))
    (pair : incoming.lookup source = some operand) (mem : use ∈ operand.uses) :
    a.Reads use.1 use.2 (values use.1)

end Exec

def Module.HasBody (m : Module) (body : Body) : Prop :=
  ∃ unit ∈ m.units.toList, unit.body = some body

/-- A unit that runs on some arguments comes to the point where the machine is. -/
def Module.Reaches (m : Module) (machine : Exec.Machine) : Prop :=
  ∃ body args, m.HasBody body ∧ Exec.Steps m (.running (.enter body args) [] []) machine

end TwinLisp.Graph
