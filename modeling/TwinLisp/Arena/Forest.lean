import TwinLisp.Arena
import TwinLisp.Value

/-!
The tables of a program in flat form as a forest: what refers to what, what a pass over the tables can
come to from the top-level expressions, and quoting as such a pass.
-/

namespace TwinLisp

/-- The run of children that a node refers to. -/
def NodeKind.items? : NodeKind → Option Run
  | list items => some items
  | letIn _ body => some body
  | _ => none

/-- The run of bindings that a node refers to. -/
def NodeKind.bindings? : NodeKind → Option Run
  | letIn bindings _ => some bindings
  | _ => none

namespace Run

/-- The run lies inside a table of `size` entries. -/
def Inside (r : Run) (size : Nat) : Prop :=
  r.start + r.length ≤ size

/-- No entry is in both runs. -/
def Apart (r s : Run) : Prop :=
  ∀ i, r.start ≤ i → i < r.start + r.length → ¬(s.start ≤ i ∧ i < s.start + s.length)

/-- The entries of a run that lies inside the table. -/
def entries? {α : Type} (r : Run) (table : Array α) : Option (List α) :=
  if r.start + r.length ≤ table.size then some (r.entries table) else none

end Run

/-- The runs that nodes have in a table of `size` entries lie inside it, and no two nodes share an entry. -/
structure Allotted (nodes : Array Node) (run? : NodeKind → Option Run) (size : Nat) : Prop where
  inside : ∀ (id : Nat) (node : Node) r, nodes[id]? = some node → run? node.kind = some r → r.Inside size
  apart : ∀ (id id' : Nat) (node node' : Node) r s, id ≠ id' → nodes[id]? = some node →
    nodes[id']? = some node' → run? node.kind = some r → run? node'.kind = some s → r.Apart s

namespace Arena

def below (a : Arena) (node : Node) : List Nat :=
  match node.kind with
  | .int _ | .str _ | .ident _ => []
  | .quote datum _ => [datum]
  | .list items => items.entries a.children
  | .letIn bindings body => (bindings.entries a.bindings).map (·.init) ++ body.entries a.children

/-- The data of a quoted node, read from the tables; there may be less than `depth` nodes above
another. -/
def quoted? (a : Arena) : Nat → Nat → Option Value
  | 0, _ => none
  | depth + 1, id => do
    let node ← a.nodes[id]?
    match node.kind with
    | .int n => return .int n
    | .str text => return .str text
    | .ident name => return .sym name
    | .quote datum _ => return .list [.sym "quote", ← a.quoted? depth datum]
    -- a run that leaves its table makes the pass fail, and is not cut short
    | .list items => return .list (← (← items.entries? a.children).mapM (a.quoted? depth))
    | .letIn bindings body =>
      let bs ← (← bindings.entries? a.bindings).mapM fun b => do
        return .list [.sym b.name, ← a.quoted? depth b.init]
      let es ← (← body.entries? a.children).mapM (a.quoted? depth)
      return .list (.sym "let" :: .list bs :: es)

end Arena

/-- What a pass over the tables can look up. -/
inductive Reference
  | node (id : Nat)
  | items (run : Run)
  | bindings (run : Run)

/-- The look-up succeeds. -/
def Reference.Resolves (a : Arena) : Reference → Prop
  | node id => (a.nodes[id]?).isSome
  | items run => (run.entries? a.children).isSome
  | bindings run => (run.entries? a.bindings).isSome

namespace FlatProgram

/-- The tables are a forest, whose trees are the top-level expressions. -/
structure Forest (p : FlatProgram) : Prop where
  /-- Children come before their parents. -/
  descends : ∀ id node, p.arena.nodes[id]? = some node → ∀ child ∈ p.arena.below node, child < id
  /-- Every node is referred to once, as a top-level expression or by a parent, and nothing else is. -/
  references : (p.roots ++ p.arena.nodes.toList.flatMap p.arena.below).Perm
    (List.range p.arena.nodes.size)
  items : Allotted p.arena.nodes NodeKind.items? p.arena.children.size
  bindings : Allotted p.arena.nodes NodeKind.bindings? p.arena.bindings.size

/-- What a pass can come by that starts from the top-level expressions: it looks up what it has come
by, and passes over the first entries of a run. -/
inductive Reaches (p : FlatProgram) : Reference → Prop
  | root {id} (mem : id ∈ p.roots) : Reaches p (.node id)
  | datum {id datum style span} (above : Reaches p (.node id))
      (found : p.arena.nodes[id]? = some ⟨.quote datum style, span⟩) : Reaches p (.node datum)
  | items {id node r} (above : Reaches p (.node id)) (found : p.arena.nodes[id]? = some node)
      (has : node.kind.items? = some r) : Reaches p (.items r)
  | bindings {id node r} (above : Reaches p (.node id)) (found : p.arena.nodes[id]? = some node)
      (has : node.kind.bindings? = some r) : Reaches p (.bindings r)
  | skip {r} (above : Reaches p (.items r)) (n : Nat) : Reaches p (.items (r.skip n))
  | item {r ids id} (above : Reaches p (.items r)) (found : r.entries? p.arena.children = some ids)
      (mem : id ∈ ids) : Reaches p (.node id)
  | init {r bs b} (above : Reaches p (.bindings r)) (found : r.entries? p.arena.bindings = some bs)
      (mem : b ∈ bs) : Reaches p (.node b.init)

end FlatProgram

end TwinLisp
