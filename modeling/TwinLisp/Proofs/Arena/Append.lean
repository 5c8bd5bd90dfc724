import TwinLisp.Arena.Append

/-! Adding expressions to tables that stand behind others. -/

namespace TwinLisp

namespace Arena

variable (a b : Arena) (n : Nat)

theorem append_empty : a.append n {} = a := by
  simp [append]

theorem size_append : (a.append n b).nodes.size = b.nodes.size + a.nodes.size := by
  rw [append, Array.size_append, Array.size_map, Nat.add_comm]

theorem push_append (kind : NodeKind) (span : Span) :
    (a.append n b).push (kind.behind a) (span.shift n)
      = (a.append n (b.push kind span).1, (b.push kind span).2 + a.nodes.size) := by
  simp only [push, size_append, Prod.mk.injEq, and_true]
  simp [append, Node.behind]

/-- Entries that are added behind other ones. -/
theorem append_map_append {α β : Type} (f : α → β) (xs : Array β) (ys : Array α) (zs : List α) :
    xs ++ ys.map f ++ zs.map f = xs ++ (ys ++ zs).map f := by
  apply Array.toList_inj.mp
  simp only [Array.toList_append, Array.toList_appendList, Array.toList_map, List.map_append,
    List.append_assoc]

/-- Children that are added behind `a` get a run that begins so much further on. -/
theorem pushChildren_append (ids : List Nat) :
    (a.append n b).pushChildren (ids.map (· + a.nodes.size))
      = (a.append n (b.pushChildren ids).1, (b.pushChildren ids).2.shift a.children.size) := by
  simp [pushChildren, append, Run.shift, Nat.add_comm, append_map_append]

theorem pushBindings_append (bs : List (LetBinding Nat)) :
    (a.append n b).pushBindings (bs.map (LetBinding.behind a n))
      = (a.append n (b.pushBindings bs).1, (b.pushBindings bs).2.shift a.bindings.size) := by
  simp [pushBindings, append, Run.shift, Nat.add_comm, append_map_append]

mutual

/-- An expression is added behind other tables as it is added to tables of its own. -/
theorem add_append (b : Arena) : ∀ e : Expr, (a.append n b).add (e.shift n)
    = (a.append n (b.add e).1, (b.add e).2 + a.nodes.size)
  | .int value span => push_append a b n (.int value) span
  | .str text span => push_append a b n (.str text) span
  | .ident name span => push_append a b n (.ident name) span
  | .quote datum style span => by
    have inner := add_append b datum
    rw [Expr.shift] at inner ⊢
    rw [Expr.mapSpans, add, inner, add]
    exact push_append a _ n (.quote _ style) span
  | .list items span => by
    rw [Expr.shift, Expr.mapSpans, add, addAll_append b items, add]
    simp only [pushChildren_append]
    exact push_append a _ n (.list _) span
  -- initialisers, then the body, then the node: the order in which nodes are numbered
  | .letIn bindings body span => by
    rw [Expr.shift, Expr.mapSpans, add, addBindings_append b bindings, add]
    simp only [addAll_append _ body, pushBindings_append, pushChildren_append]
    exact push_append a _ n (.letIn _ _) span

/-- What is added behind the tables of `a` comes to stand as in tables of its own, with numbers and
runs moved on. -/
theorem addAll_append (b : Arena) : ∀ es : List Expr,
    (a.append n b).addAll (Expr.mapSpansAll (Span.shift n) es)
      = (a.append n (b.addAll es).1, (b.addAll es).2.map (· + a.nodes.size))
  | [] => rfl
  | e :: es => by
    have first := add_append b e
    rw [Expr.shift] at first
    rw [Expr.mapSpansAll, addAll, first, addAll]
    simp only [addAll_append _ es, List.map_cons]

theorem addBindings_append (b : Arena) : ∀ bs : List (LetBinding Expr),
    (a.append n b).addBindings (Expr.mapSpansBindings (Span.shift n) bs)
      = (a.append n (b.addBindings bs).1, (b.addBindings bs).2.map (LetBinding.behind a n))
  | [] => rfl
  | ⟨name, init, span⟩ :: bs => by
    have first := add_append b init
    rw [Expr.shift] at first
    rw [Expr.mapSpansBindings, addBindings, first, addBindings]
    simp only [addBindings_append _ bs, List.map_cons, LetBinding.behind]

end

theorem addAll_of_append (a : Arena) (es es' : List Expr) : a.addAll (es ++ es')
    = (((a.addAll es).1.addAll es').1, (a.addAll es).2 ++ ((a.addAll es).1.addAll es').2) := by
  induction es generalizing a with
  | nil => rfl
  | cons e es ih => simp only [List.cons_append, addAll, ih]

theorem addBindings_of_append (a : Arena) (bs bs' : List (LetBinding Expr)) : a.addBindings (bs ++ bs')
    = (((a.addBindings bs).1.addBindings bs').1,
      (a.addBindings bs).2 ++ ((a.addBindings bs).1.addBindings bs').2) := by
  induction bs generalizing a with
  | nil => rfl
  | cons b bs ih => simp only [List.cons_append, addBindings, ih]

end Arena

/-- The flat form of two programs, one behind the other. -/
theorem FlatProgram.ofExprs_append (p q : List Expr) (n : Nat) :
    ofExprs (p ++ q.map (Expr.shift n)) = (ofExprs p).append n (ofExprs q) := by
  have behind := Arena.addAll_append (Arena.addAll {} p).1 n {} q
  rw [Arena.append_empty, Expr.mapSpansAll_shift] at behind
  simp only [ofExprs, append, Arena.addAll_of_append, behind]

end TwinLisp
