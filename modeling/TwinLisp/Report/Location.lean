import TwinLisp.Eval.World
import TwinLisp.Reader.Occurrence
import TwinLisp.Report

/-! Where errors point: into the source text, and there to a node of the program. -/

namespace TwinLisp

/-- The span is one of a text of that many bytes. -/
def Span.Within (span : Span) (size : Nat) : Prop :=
  span.start ≤ span.stop ∧ span.stop ≤ size

def Reader.IsNodeSpan (program : List Expr) (span : Span) : Prop :=
  ∃ mode node, Occurs program mode node ∧ node.span = span

/-- Calls of the value run no other code than this. -/
inductive Value.RunsOnly (code : Expr → Prop) : Value → Prop
  | data {v} (data : v.function? = none) : RunsOnly code v
  | function {f} (body : ∀ e ∈ f.body, code e)
    (captures : ∀ c ∈ f.captures, RunsOnly code c.2.value) : RunsOnly code (.function f)

/-- Every function at hand is one of the program. -/
def Eval.World.RunsOnly (program : List Expr) (w : World) : Prop :=
  ∀ frame ∈ w.env.frames, ∀ b ∈ frame, b.2.value.RunsOnly (Reader.Occurs program .code)

/-- The diagnosis points at a node of the program, which stands in the source, and its report marks just
that span. -/
def Diagnosis.PointsAtNode (d : Diagnosis) (source : String) (program : List Expr) : Prop :=
  ∃ span, d.span = some span ∧ Reader.IsNodeSpan program span ∧ span.Within source.utf8ByteSize ∧
    span.clamp source.utf8ByteSize = span

end TwinLisp
