import TwinLisp.Expr.Shift
import TwinLisp.Reader

/-! The nodes of a program, and the text of each. -/

namespace TwinLisp

/-- The nodes directly below a node, in the order of the text. -/
def Expr.children : Expr → List Expr
  | .int _ _ | .str _ _ | .ident _ _ => []
  | .quote datum _ _ => [datum]
  | .list items _ => items
  | .letIn bindings body _ => bindings.map (·.init) ++ body

/-- The span begins and ends between two characters of the source, and the slice is the text there. -/
def Span.Delimits (span : Span) (source slice : String) : Prop :=
  ∃ before after, source = before ++ slice ++ after ∧ before.utf8ByteSize = span.start ∧
    (before ++ slice).utf8ByteSize = span.stop

namespace Reader

/-- How the nodes below a node are read. -/
def Mode.below (mode : Mode) : Expr → Mode
  | .quote .. => .datum
  | _ => mode

/-- The expression is a node of the program, and it is read in the mode. -/
inductive Occurs (program : List Expr) : Mode → Expr → Prop
  | root {e} (mem : e ∈ program) : Occurs program .code e
  | child {mode parent e} (above : Occurs program mode parent) (mem : e ∈ parent.children) :
    Occurs program (mode.below parent) e

/-- On its own the text is read as this tree: as code, or as data behind an apostrophe. -/
def ReadsAs (text : String) (tree : Expr) : Mode → Prop
  | .code => read text = .ok [tree]
  | .datum => read ("'" ++ text) = .ok [.quote (tree.shift 1) .short ⟨0, text.utf8ByteSize + 1⟩]

end Reader

end TwinLisp
