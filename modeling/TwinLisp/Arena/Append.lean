import TwinLisp.Arena
import TwinLisp.Expr.Shift

/-! Two programs in flat form as one: the tables of the second one behind those of the first. -/

namespace TwinLisp

/-- The run, if `n` more entries are before it. -/
def Run.shift (n : Nat) (r : Run) : Run :=
  { r with start := r.start + n }

/-- The kind of a node that refers to tables which stand behind those of `a`. -/
def NodeKind.behind (a : Arena) : NodeKind → NodeKind
  | .int value => .int value
  | .str text => .str text
  | .ident name => .ident name
  | .quote datum style => .quote (datum + a.nodes.size) style
  | .list items => .list (items.shift a.children.size)
  | .letIn bindings body => .letIn (bindings.shift a.bindings.size) (body.shift a.children.size)

/-- A node whose tables stand behind those of `a`, with `n` more bytes before its text. -/
def Node.behind (a : Arena) (n : Nat) (node : Node) : Node :=
  ⟨node.kind.behind a, node.span.shift n⟩

/-- A binding whose tables stand behind those of `a`, with `n` more bytes before its text. -/
def LetBinding.behind (a : Arena) (n : Nat) (b : LetBinding Nat) : LetBinding Nat :=
  ⟨b.name, b.init + a.nodes.size, b.span.shift n⟩

/-- The tables of `b` behind those of `a`, with `n` more bytes before the text of `b`. -/
def Arena.append (a : Arena) (n : Nat) (b : Arena) : Arena where
  nodes := a.nodes ++ b.nodes.map (Node.behind a n)
  children := a.children ++ b.children.map (· + a.nodes.size)
  bindings := a.bindings ++ b.bindings.map (LetBinding.behind a n)

/-- The program `q` behind the program `p`, with `n` more bytes before the text of `q`. -/
def FlatProgram.append (p : FlatProgram) (n : Nat) (q : FlatProgram) : FlatProgram where
  arena := p.arena.append n q.arena
  roots := p.roots ++ q.roots.map (· + p.arena.nodes.size)

end TwinLisp
