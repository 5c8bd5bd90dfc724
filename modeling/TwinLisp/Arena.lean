import TwinLisp.Expr

/-! Programs in flat form: nodes in a table, children by number and before their parents. -/

namespace TwinLisp

/-- A run of entries in a table. -/
structure Run where
  start : Nat
  length : Nat
deriving DecidableEq

namespace Run

def isEmpty (r : Run) : Bool :=
  r.length == 0

/-- The run without its first `n` entries; empty at its end where it has no more than `n`. -/
def skip (r : Run) (n : Nat) : Run :=
  if r.length ≤ n then ⟨r.start + r.length, 0⟩ else ⟨r.start + n, r.length - n⟩

def entries {α : Type} (r : Run) (table : Array α) : List α :=
  (table.extract r.start (r.start + r.length)).toList

end Run

/-- The kind of a node, children by number. -/
inductive NodeKind
  | int (value : Int64)
  | str (text : String)
  | ident (name : String)
  | quote (datum : Nat) (style : QuoteStyle)
  | list (items : Run)
  | letIn (bindings : Run) (body : Run)
deriving DecidableEq

/-- A node at its place in the source. -/
structure Node where
  kind : NodeKind
  span : Span
deriving DecidableEq

/-- Tables of nodes, of the children of lists and bodies, and of the bindings of `let` forms. -/
structure Arena where
  nodes : Array Node := #[]
  children : Array Nat := #[]
  bindings : Array (LetBinding Nat) := #[]

namespace Arena

def push (a : Arena) (kind : NodeKind) (span : Span) : Arena × Nat :=
  ({ a with nodes := a.nodes.push ⟨kind, span⟩ }, a.nodes.size)

def pushChildren (a : Arena) (ids : List Nat) : Arena × Run :=
  ({ a with children := a.children ++ ids }, ⟨a.children.size, ids.length⟩)

def pushBindings (a : Arena) (bs : List (LetBinding Nat)) : Arena × Run :=
  ({ a with bindings := a.bindings ++ bs }, ⟨a.bindings.size, bs.length⟩)

mutual

/-- Adds an expression, children first and left to right, and gives the number of its node. -/
def add (a : Arena) : Expr → Arena × Nat
  | .int value span => a.push (.int value) span
  | .str text span => a.push (.str text) span
  | .ident name span => a.push (.ident name) span
  | .quote datum style span =>
    let (a, id) := a.add datum
    a.push (.quote id style) span
  | .list items span =>
    let (a, ids) := a.addAll items
    let (a, run) := a.pushChildren ids
    a.push (.list run) span
  | .letIn bindings body span =>
    let (a, bs) := a.addBindings bindings
    let (a, ids) := a.addAll body
    -- entries of a run lie side by side: it is added when all nodes below are
    let (a, bindingRun) := a.pushBindings bs
    let (a, bodyRun) := a.pushChildren ids
    a.push (.letIn bindingRun bodyRun) span

def addAll (a : Arena) : List Expr → Arena × List Nat
  | [] => (a, [])
  | e :: es =>
    let (a, id) := a.add e
    let (a, ids) := a.addAll es
    (a, id :: ids)

def addBindings (a : Arena) : List (LetBinding Expr) → Arena × List (LetBinding Nat)
  | [] => (a, [])
  | ⟨name, init, span⟩ :: bs =>
    let (a, id) := a.add init
    let (a, rest) := a.addBindings bs
    (a, ⟨name, id, span⟩ :: rest)

end

/-- The expression of a node whose children are already expressions. -/
def nodeExpr? (a : Arena) (done : Array Expr) (node : Node) : Option Expr :=
  match node.kind with
  | .int value => some (.int value node.span)
  | .str text => some (.str text node.span)
  | .ident name => some (.ident name node.span)
  -- a child that has not been built yet is not found
  | .quote datum style => (done[datum]?).map (.quote · style node.span)
  | .list items => ((items.entries a.children).mapM (done[·]?)).map (.list · node.span)
  | .letIn bindings body => do
    let bs ← (bindings.entries a.bindings).mapM fun b =>
      (done[b.init]?).map (⟨b.name, ·, b.span⟩)
    let es ← (body.entries a.children).mapM (done[·]?)
    return .letIn bs es node.span

/-- The expression of every node, or `none` where a child does not come before its parent. -/
def exprs? (a : Arena) : Option (Array Expr) :=
  a.nodes.foldlM (fun done node => (a.nodeExpr? done node).map done.push) #[]

end Arena

/-- A program in flat form: its tables and its top-level expressions in order. -/
structure FlatProgram where
  arena : Arena
  roots : List Nat

namespace FlatProgram

def ofExprs (program : List Expr) : FlatProgram :=
  let (arena, roots) := Arena.addAll {} program
  ⟨arena, roots⟩

def exprs? (p : FlatProgram) : Option (List Expr) := do
  let done ← p.arena.exprs?
  p.roots.mapM (done[·]?)

end FlatProgram

end TwinLisp
