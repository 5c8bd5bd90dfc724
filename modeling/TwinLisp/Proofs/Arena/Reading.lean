import Mathlib.Data.List.Induction
import TwinLisp.Proofs.Arena.Forest
import TwinLisp.Proofs.Reader.Alike
import TwinLisp.Proofs.Reader.Flat

/-!
A program in flat form is read back node by node, and it is quoted as its expressions are: the tables of
every text that is read are a forest, in which no pass meets a reference that does not resolve.
-/

namespace TwinLisp

theorem mapM_eq_some_iff {α β : Type} {f : α → Option β} {xs : List α} {ys : List β} :
    xs.mapM f = some ys ↔ List.Forall₂ (fun x y => f x = some y) xs ys := by
  induction xs generalizing ys with
  | nil => cases ys <;> simp
  | cons x xs ih =>
    cases hx : f x with
    | none => cases ys <;> simp [hx]
    | some y =>
      cases hxs : xs.mapM f with
      | none => cases ys <;> simp [hx, hxs, ← ih]
      | some ys' => cases ys <;> simp [hx, hxs, ← ih]

/-- What is computed for each element of a list, by way of another computation. -/
theorem mapM_map {α β γ : Type} {f : α → Option β} {g : α → Option γ} {k : β → γ} {xs : List α}
    {ys : List β} (read : xs.mapM f = some ys)
    (each : ∀ x ∈ xs, ∀ y, f x = some y → g x = some (k y)) : xs.mapM g = some (ys.map k) := by
  rw [mapM_eq_some_iff] at read ⊢
  induction read with
  | nil => exact .nil
  | cons found _ ih =>
    apply List.Forall₂.cons
    · exact each _ (List.mem_cons_self ..) _ found
    · exact ih fun x mem => each x (List.mem_cons_of_mem _ mem)

/-- The second list holds what the first one does, and maybe more behind it. -/
def Extends (done done' : Array Expr) : Prop :=
  ∀ (id : Nat) e, done[id]? = some e → done'[id]? = some e

theorem Extends.trans {done done' done'' : Array Expr} (first : Extends done done')
    (second : Extends done' done'') : Extends done done'' :=
  fun id e found => second id e (first id e found)

theorem extends_push (done : Array Expr) (e : Expr) : Extends done (done.push e) := by
  intro id e' found
  have lt : id < done.size := (Array.getElem?_eq_some_iff.mp found).1
  simpa [Array.getElem?_push, Nat.ne_of_lt lt] using found

/-- What could be read of some nodes can be read of more. -/
theorem Extends.mapM {done done' : Array Expr} (more : Extends done done') {ids : List Nat}
    {es : List Expr} (read : ids.mapM (done[·]?) = some es) : ids.mapM (done'[·]?) = some es := by
  rw [mapM_eq_some_iff] at read ⊢
  exact read.imp fun id e => more id e

theorem Extends.inits {done done' : Array Expr} (more : Extends done done')
    {bs : List (LetBinding Nat)} {bs' : List (LetBinding Expr)}
    (read : bs.mapM (fun b => (done[b.init]?).map (⟨b.name, ·, b.span⟩)) = some bs') :
    bs.mapM (fun b => (done'[b.init]?).map (⟨b.name, ·, b.span⟩)) = some bs' := by
  rw [mapM_eq_some_iff] at read ⊢
  apply read.imp
  intro b b' found
  obtain ⟨init, known, rfl⟩ := Option.map_eq_some_iff.mp found
  simp [more b.init init known]

namespace Arena

variable {a a' : Arena} {done done' : Array Expr} {node : Node} {e : Expr}

/-- The expression of a node depends on those of its children only. -/
theorem nodeExpr?_of_extends (more : Extends done done') (read : a.nodeExpr? done node = some e) :
    a.nodeExpr? done' node = some e := by
  obtain ⟨kind, span⟩ := node
  -- a node is read from the expressions of its children, and these stay
  cases kind with
  | quote datum style =>
    obtain ⟨e', found, rfl⟩ := Option.map_eq_some_iff.mp read
    simp [nodeExpr?, more datum e' found]
  | list items =>
    obtain ⟨es, found, rfl⟩ := Option.map_eq_some_iff.mp read
    simp only [nodeExpr?, more.mapM found]
    simp
  | letIn bindings body =>
    simp only [nodeExpr?, Option.bind_eq_bind, Option.bind_eq_some_iff] at read ⊢
    obtain ⟨bs, inits, es, found, same⟩ := read
    exact ⟨bs, more.inits inits, es, more.mapM found, same⟩
  | _ => exact read

theorem exprs?_eq (a : Arena) : a.exprs? =
    a.nodes.toList.foldlM (fun done node => (a.nodeExpr? done node).map done.push) #[] := by
  rw [exprs?, Array.foldlM_toList]

/-- The expression of a node whose runs lie inside the tables stays the same when the tables grow. -/
theorem nodeExpr?_append {cs : List Nat} {bs : List (LetBinding Nat)}
    (children : a'.children = a.children ++ cs) (bindings : a'.bindings = a.bindings ++ bs)
    (items : ∀ r, node.kind.items? = some r → r.Inside a.children.size)
    (lets : ∀ r, node.kind.bindings? = some r → r.Inside a.bindings.size) :
    a'.nodeExpr? done node = a.nodeExpr? done node := by
  obtain ⟨kind, span⟩ := node
  cases kind with
  | list run => simp [nodeExpr?, children, (items run rfl).entries_append]
  | letIn binds body =>
    simp [nodeExpr?, children, bindings, (items body rfl).entries_append,
      (lets binds rfl).entries_append]
  | _ => rfl

/-- A fold that may fail depends on its step only at the elements. -/
theorem foldlM_congr {α β : Type} {f g : β → α → Option β} {xs : List α}
    (same : ∀ x ∈ xs, ∀ b, f b x = g b x) (b : β) : xs.foldlM f b = xs.foldlM g b := by
  induction xs generalizing b with
  | nil => rfl
  | cons x xs ih =>
    have rest (b : β) : xs.foldlM f b = xs.foldlM g b :=
      ih (fun y mem => same y (List.mem_cons_of_mem x mem)) b
    simp [List.foldlM_cons, same x (List.mem_cons_self ..), rest]

/-- A node behind all others is read last. -/
theorem exprs?_push (nodes : a'.nodes = a.nodes.push node)
    (kept : ∀ n ∈ a.nodes, ∀ done, a'.nodeExpr? done n = a.nodeExpr? done n)
    (read : a.exprs? = some done) (last : a'.nodeExpr? done node = some e) :
    a'.exprs? = some (done.push e) := by
  have same : ∀ n ∈ a.nodes.toList, ∀ done : Array Expr,
      (a'.nodeExpr? done n).map done.push = (a.nodeExpr? done n).map done.push := by
    intro n mem done
    rw [kept n (Array.mem_toList_iff.mp mem)]
  rw [exprs?_eq] at read
  rw [exprs?_eq, nodes, Array.toList_push, List.foldlM_append, foldlM_congr same, read]
  simp [last]

/-- What has been read of the nodes in order: one expression for each, from those of its children. -/
theorem read_of_foldlM {nodes : List Node}
    (read : nodes.foldlM (fun done node => (a.nodeExpr? done node).map done.push) #[] = some done) :
    done.size = nodes.length ∧
      ∀ (id : Nat) node, nodes[id]? = some node →
        ∃ e, done[id]? = some e ∧ a.nodeExpr? done node = some e := by
  -- from the end, since the fold reads the last node with all others read
  induction nodes using List.reverseRecOn generalizing done with
  | nil =>
    cases read
    simp
  | append_singleton nodes node ih =>
    rw [List.foldlM_append] at read
    obtain ⟨before, readBefore, readLast⟩ := Option.bind_eq_some_iff.mp read
    obtain ⟨e, last, rfl⟩ : ∃ e, a.nodeExpr? before node = some e ∧ before.push e = done := by
      simpa using readLast
    obtain ⟨size, each⟩ := ih readBefore
    have more := extends_push before e
    refine ⟨by simp [size], ?_⟩
    intro id node' found
    by_cases old : id < nodes.length
    · rw [List.getElem?_append_left old] at found
      obtain ⟨e', known, computed⟩ := each id node' found
      exact ⟨e', more id e' known, nodeExpr?_of_extends more computed⟩
    · -- only the last node is new, and its children were read before
      have here : id = before.size := by
        have lt := (List.getElem?_eq_some_iff.mp found).1
        simp at lt
        omega
      have same : node' = node := by
        simpa [here, size, eq_comm] using found
      subst here same
      exact ⟨e, Array.getElem?_push_size, nodeExpr?_of_extends more last⟩

/-- Where all nodes can be read, each one has an expression, which it has in the end as well. -/
theorem read_of_exprs? (read : a.exprs? = some done) : done.size = a.nodes.size ∧
    ∀ (id : Nat) node, a.nodes[id]? = some node →
      ∃ e, done[id]? = some e ∧ a.nodeExpr? done node = some e := by
  rw [exprs?_eq] at read
  simpa using read_of_foldlM read

/-! ### Growing -/

/-- Tables that are a forest and can be read; no node is yet above those that are `pending`. -/
structure Grown (a : Arena) (pending : List Nat) (done : Array Expr) : Prop where
  forest : FlatProgram.Forest ⟨a, pending⟩
  read : a.exprs? = some done

theorem grown_empty : Grown {} [] #[] where
  forest := by
    constructor
    case descends => simp
    case references => simp
    case items => constructor <;> simp
    case bindings => constructor <;> simp
  read := rfl

variable {pending ids : List Nat} {cs : List Nat} {bs : List (LetBinding Nat)}

/-- One node, put above the last pending ones, in tables `b` where its runs have been added. -/
theorem Grown.push (h : Grown a (pending ++ ids) done) (b : Arena) (kind : NodeKind) (span : Span)
    (nodes : b.nodes = a.nodes) (children : b.children = a.children ++ cs)
    (bindings : b.bindings = a.bindings ++ bs)
    (items : ∀ r, kind.items? = some r → r = ⟨a.children.size, cs.length⟩)
    (lets : ∀ r, kind.bindings? = some r → r = ⟨a.bindings.size, bs.length⟩)
    (below : b.below ⟨kind, span⟩ = ids) (read : b.nodeExpr? done ⟨kind, span⟩ = some e) :
    ∃ done', Extends done done' ∧
      Grown (b.push kind span).1 (pending ++ [(b.push kind span).2]) done' ∧
      done'[(b.push kind span).2]? = some e := by
  -- old nodes are read from old entries
  have kept : ∀ n ∈ a.nodes, ∀ done, b.nodeExpr? done n = a.nodeExpr? done n := by
    intro n mem done
    obtain ⟨id, found⟩ := Array.mem_iff_getElem?.mp mem
    exact nodeExpr?_append children bindings (h.forest.items.inside id n · found)
      (h.forest.bindings.inside id n · found)
  have size : done.size = a.nodes.size := (read_of_exprs? h.read).1
  have pushed : (b.push kind span).1.nodes = a.nodes.push ⟨kind, span⟩ := by
    simp [Arena.push, nodes]
  have last : (b.push kind span).2 = a.nodes.size := by
    simp [Arena.push, nodes]
  refine ⟨done.push e, extends_push done e, ⟨?_, exprs?_push pushed kept h.read read⟩, ?_⟩
  · rw [last]
    exact h.forest.push pushed children bindings items lets below
  · rw [last, ← size]
    exact Array.getElem?_push_size

/-- A node without runs. -/
theorem Grown.pushPlain (h : Grown a (pending ++ ids) done) {kind : NodeKind} {span : Span}
    (items : kind.items? = none) (lets : kind.bindings? = none)
    (below : a.below ⟨kind, span⟩ = ids) (read : a.nodeExpr? done ⟨kind, span⟩ = some e) :
    ∃ done', Extends done done' ∧
      Grown (a.push kind span).1 (pending ++ [(a.push kind span).2]) done' ∧
      done'[(a.push kind span).2]? = some e :=
  h.push a kind span rfl Array.appendList_nil.symm Array.appendList_nil.symm (by simp [items])
    (by simp [lets]) below read

/-- A node without children. -/
theorem Grown.pushLeaf (h : Grown a pending done) {kind : NodeKind} {span : Span}
    (items : kind.items? = none) (lets : kind.bindings? = none)
    (below : a.below ⟨kind, span⟩ = []) (read : a.nodeExpr? done ⟨kind, span⟩ = some e) :
    ∃ done', Extends done done' ∧
      Grown (a.push kind span).1 (pending ++ [(a.push kind span).2]) done' ∧
      done'[(a.push kind span).2]? = some e := by
  have none : Grown a (pending ++ []) done := by simpa using h
  exact none.pushPlain items lets below read

mutual

/-- An expression is added as the last pending one, and it can be read. -/
theorem grown_add {a : Arena} {pending : List Nat} {done : Array Expr} (h : Grown a pending done) :
    ∀ e : Expr, ∃ done', Extends done done' ∧ Grown (a.add e).1 (pending ++ [(a.add e).2]) done' ∧
      done'[(a.add e).2]? = some e
  | .int value span => h.pushLeaf rfl rfl rfl rfl
  | .str text span => h.pushLeaf rfl rfl rfl rfl
  | .ident name span => h.pushLeaf rfl rfl rfl rfl
  | .quote datum style span => by
    obtain ⟨inner, more, grown, found⟩ := grown_add h datum
    have read : (a.add datum).1.nodeExpr? inner ⟨.quote (a.add datum).2 style, span⟩
        = some (.quote datum style span) := by
      simp [nodeExpr?, found]
    obtain ⟨outer, more', added⟩ := grown.pushPlain rfl rfl rfl read
    exact ⟨outer, more.trans more', added⟩
  | .list items span => by
    obtain ⟨inner, more, grown, found⟩ := grown_addAll h items
    let b := ((a.addAll items).1.pushChildren (a.addAll items).2).1
    let run : Run := ⟨(a.addAll items).1.children.size, (a.addAll items).2.length⟩
    have listed : run.entries b.children = (a.addAll items).2 := Run.entries_last _ _
    -- the run of the node is the last one of the table
    have read : b.nodeExpr? inner ⟨.list run, span⟩ = some (.list items span) := by
      simp [nodeExpr?, listed, found]
    obtain ⟨outer, more', added⟩ := grown.push b (.list run) span rfl rfl Array.appendList_nil.symm
      (by simp [NodeKind.items?, run]) (by simp [NodeKind.bindings?]) listed read
    exact ⟨outer, more.trans more', added⟩
  | .letIn bindings body span => by
    obtain ⟨outside, more, grown, bound⟩ := grown_addBindings h bindings
    obtain ⟨inner, more', grown', found⟩ := grown_addAll grown body
    let a' := (a.addBindings bindings).1
    let bs := (a.addBindings bindings).2
    let ids := (a'.addAll body).2
    let b := ((a'.addAll body).1.pushBindings bs).1.pushChildren ids |>.1
    let binds : Run := ⟨(a'.addAll body).1.bindings.size, bs.length⟩
    let run : Run := ⟨(a'.addAll body).1.children.size, ids.length⟩
    have listed : run.entries b.children = ids := Run.entries_last _ _
    have listed' : binds.entries b.bindings = bs := Run.entries_last _ _
    have read : b.nodeExpr? inner ⟨.letIn binds run, span⟩ = some (.letIn bindings body span) := by
      have inits := more'.inits bound
      simp [nodeExpr?, listed, listed', bs, ids, a', inits, found]
    have below : b.below ⟨.letIn binds run, span⟩ = bs.map (·.init) ++ ids := by
      simp only [Arena.below, listed, listed']
    -- the initial values are pending before the body; the node takes both
    have together : Grown (a'.addAll body).1 (pending ++ (bs.map (·.init) ++ ids)) inner := by
      simpa [bs, ids, a'] using grown'
    obtain ⟨outer, more'', added⟩ := together.push b (.letIn binds run) span rfl rfl rfl
      (by simp [NodeKind.items?, run]) (by simp [NodeKind.bindings?, binds]) below read
    exact ⟨outer, (more.trans more').trans more'', added⟩

theorem grown_addAll {a : Arena} {pending : List Nat} {done : Array Expr} (h : Grown a pending done) :
    ∀ es : List Expr, ∃ done', Extends done done' ∧
      Grown (a.addAll es).1 (pending ++ (a.addAll es).2) done' ∧
      (a.addAll es).2.mapM (done'[·]?) = some es
  | [] => by
    exact ⟨done, fun _ _ => id, by simpa [addAll] using h, rfl⟩
  | e :: es => by
    obtain ⟨done', more, grown, found⟩ := grown_add h e
    obtain ⟨done'', more', grown', found'⟩ := grown_addAll grown es
    refine ⟨done'', more.trans more', ?_, ?_⟩
    · simpa [addAll] using grown'
    · simp [addAll, more' _ _ found, found']

theorem grown_addBindings {a : Arena} {pending : List Nat} {done : Array Expr}
    (h : Grown a pending done) : ∀ bs : List (LetBinding Expr), ∃ done', Extends done done' ∧
      Grown (a.addBindings bs).1 (pending ++ (a.addBindings bs).2.map (·.init)) done' ∧
      (a.addBindings bs).2.mapM (fun b => (done'[b.init]?).map (⟨b.name, ·, b.span⟩)) = some bs
  | [] => by
    exact ⟨done, fun _ _ => id, by simpa [addBindings] using h, rfl⟩
  | ⟨name, init, span⟩ :: bs => by
    obtain ⟨done', more, grown, found⟩ := grown_add h init
    obtain ⟨done'', more', grown', found'⟩ := grown_addBindings grown bs
    refine ⟨done'', more.trans more', ?_, ?_⟩
    · simpa [addBindings] using grown'
    · simp [addBindings, more' _ _ found, found']

end

end Arena

namespace FlatProgram

variable {p : FlatProgram} {done : Array Expr}

/-- A node of a forest is quoted as its expression is; below it there is no need to go deeper than its
number. By induction on the depth: children have smaller numbers. -/
theorem Forest.quoted?_eq (h : p.Forest) (read : p.arena.exprs? = some done) {depth id : Nat} {e : Expr}
    (found : done[id]? = some e) (lt : id < depth) :
    p.arena.quoted? depth id = some (Value.quoted e) := by
  induction depth generalizing id e with
  | zero => omega
  | succ depth ih =>
    obtain ⟨size, each⟩ := Arena.read_of_exprs? read
    obtain ⟨⟨kind, span⟩, known⟩ : ∃ node, p.arena.nodes[id]? = some node := by
      have inside : id < done.size := (Array.getElem?_eq_some_iff.mp found).1
      exact ⟨_, Array.getElem?_eq_getElem (by omega)⟩
    obtain ⟨e', found', computed⟩ := each id _ known
    obtain rfl : e' = e := Option.some.inj (found'.symm.trans found)
    have below (child : Nat) (mem : child ∈ p.arena.below ⟨kind, span⟩) (e : Expr)
        (found : done[child]? = some e) : p.arena.quoted? depth child = some (Value.quoted e) := by
      have before := h.descends id _ known child mem
      exact ih found (by omega)
    have items (r : Run) (has : kind.items? = some r) : r.entries? p.arena.children =
        some (r.entries p.arena.children) := (h.items.inside id _ r known has).entries?
    have lets (r : Run) (has : kind.bindings? = some r) : r.entries? p.arena.bindings =
        some (r.entries p.arena.bindings) := (h.bindings.inside id _ r known has).entries?
    simp only [Arena.quoted?, known]
    cases kind with
    | int value =>
      cases computed
      rfl
    | str text =>
      cases computed
      rfl
    | ident name =>
      cases computed
      rfl
    | quote datum style =>
      obtain ⟨e, inner, rfl⟩ := Option.map_eq_some_iff.mp computed
      simp [below datum (List.mem_singleton_self _) e inner, Value.quoted]
    | list run =>
      obtain ⟨es, inner, rfl⟩ := Option.map_eq_some_iff.mp computed
      have quoted := mapM_map inner below
      simp [items run rfl, quoted, Value.quoted, Value.quotedAll_eq_map]
    | letIn bindings body =>
      simp only [Arena.nodeExpr?, Option.bind_eq_bind, Option.bind_eq_some_iff] at computed
      obtain ⟨bs, bound, es, inner, same⟩ := computed
      cases same
      let data : LetBinding Expr → Value := fun b => .list [.sym b.name, .quoted b.init]
      -- a binding is the list of its name and its quoted initial value
      have inits : ((bindings.entries p.arena.bindings).mapM fun b =>
          (p.arena.quoted? depth b.init).bind fun v => some (Value.list [.sym b.name, v]))
            = some (bs.map data) := by
        apply mapM_map bound
        intro b mem b' found
        obtain ⟨e, init, rfl⟩ := Option.map_eq_some_iff.mp found
        simp [below b.init (Arena.mem_below_of_bindings rfl mem) e init, data]
      have quoted := mapM_map inner fun child mem => below child (Arena.mem_below_of_items rfl mem)
      simp [items body rfl, lets bindings rfl, inits, quoted, Value.quoted, Value.quotedAll_eq_map,
        Value.quotedBindings_eq_map, data]

/-- The tables of a text that is read are a forest: whatever a pass comes by in them resolves, they are
read back as the expressions of the text, and every node is quoted as its expression is, at a depth of no
more than its number. -/
theorem forest_of_read {source : String} (accepted : FlatProgram.read source = .ok p) :
    p.Forest ∧ (∀ ref, p.Reaches ref → ref.Resolves p.arena) ∧
      ∃ program done, Reader.read source = .ok program ∧ p.exprs? = some program ∧
        p.arena.exprs? = some done ∧ ∀ id < p.arena.nodes.size, ∃ e, done[id]? = some e ∧
          ∀ depth, id < depth → p.arena.quoted? depth id = some (Value.quoted e) := by
  -- the flat reader accepts what the other one does, and it adds the same nodes
  obtain ⟨program, readAs, rfl⟩ : ∃ program, Reader.read source = .ok program ∧
      ofExprs program = p := by
    rw [read_eq] at accepted
    cases readAs : Reader.read source with
    | error fault => simp [readAs, Except.map] at accepted
    | ok program =>
      rw [readAs] at accepted
      exact ⟨program, rfl, Except.ok.inj accepted⟩
  obtain ⟨done, -, grown, found⟩ := Arena.grown_addAll Arena.grown_empty program
  have forest : (ofExprs program).Forest := grown.forest
  refine ⟨forest, fun ref => forest.resolves_of_reaches, program, done, readAs, ?_, grown.read, ?_⟩
  · simp [exprs?, ofExprs, grown.read, found]
  · intro id inside
    obtain ⟨e, known, -⟩ := (Arena.read_of_exprs? grown.read).2 id _ (Array.getElem?_eq_getElem inside)
    -- a node is quoted as its expression is, if there is depth enough for what is below it
    exact ⟨e, known, fun depth => forest.quoted?_eq grown.read known⟩

/-- A quoted list as the initial value of a `let` form, and quoted data that has the look of one. -/
theorem forest_of_read_let :
    let p : FlatProgram := ⟨⟨#[⟨.int 1, ⟨11, 12⟩⟩, ⟨.list ⟨0, 1⟩, ⟨10, 13⟩⟩, ⟨.quote 1 .short, ⟨9, 13⟩⟩,
        ⟨.ident "x", ⟨16, 17⟩⟩, ⟨.ident "let", ⟨26, 29⟩⟩, ⟨.ident "y", ⟨30, 31⟩⟩,
        ⟨.list ⟨1, 2⟩, ⟨25, 32⟩⟩, ⟨.quote 6 .long, ⟨18, 33⟩⟩, ⟨.letIn ⟨0, 1⟩ ⟨3, 2⟩, ⟨0, 34⟩⟩],
      #[0, 4, 5, 3, 7], #[⟨"x", 2, ⟨6, 14⟩⟩]⟩, [8]⟩
    FlatProgram.read "(let ((x '(1))) x (quote (let y)))" = .ok p ∧ p.Forest ∧
      (∀ ref, p.Reaches ref → ref.Resolves p.arena) ∧
      ∃ v, ∀ depth, 8 < depth → p.arena.quoted? depth 8 = some v := by
  intro p
  have accepted : FlatProgram.read "(let ((x '(1))) x (quote (let y)))" = .ok p := by rfl
  obtain ⟨forest, resolves, _, done, -, -, -, quoted⟩ := forest_of_read accepted
  obtain ⟨e, -, quoted⟩ := quoted 8 (by decide)
  exact ⟨accepted, forest, resolves, Value.quoted e, quoted⟩

end FlatProgram

end TwinLisp
