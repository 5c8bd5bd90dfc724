import TwinLisp.Form

/-! Induction over expressions, with the parts of an expression given by membership. -/

namespace TwinLisp.Expr

/-- What holds of an expression whenever it holds of its parts holds of every expression. -/
@[elab_as_elim]
theorem induction {P : Expr → Prop} (int : ∀ n span, P (.int n span))
    (str : ∀ text span, P (.str text span)) (ident : ∀ name span, P (.ident name span))
    (quote : ∀ datum style span, P datum → P (.quote datum style span))
    (list : ∀ items span, (∀ e ∈ items, P e) → P (.list items span))
    (letIn : ∀ bindings body span, (∀ b ∈ bindings, P b.init) → (∀ e ∈ body, P e) →
      P (.letIn bindings body span)) (e : Expr) : P e :=
  @Expr.rec P (fun es => ∀ e ∈ es, P e) (fun bs => ∀ b ∈ bs, P b.init) (fun b => P b.init)
    int str ident quote list letIn
    (fun _ h => absurd h List.not_mem_nil)
    (fun _ _ head tail _ h => (List.mem_cons.mp h).elim (· ▸ head) (tail _))
    (fun _ h => absurd h List.not_mem_nil)
    (fun _ _ head tail _ h => (List.mem_cons.mp h).elim (· ▸ head) (tail _))
    (fun _ _ _ init => init) e

theorem ident_of_ident? {e : Expr} {name : String} (h : e.ident? = some name) :
    ∃ span, e = .ident name span := by
  cases e with
  | ident n span =>
    cases h
    exact ⟨span, rfl⟩
  | _ => cases h

/-- A comparison is a list that is headed by its operator. -/
theorem eq_list_of_comparison? {e : Expr} {op : CmpOp} {operands : List Expr}
    (h : e.comparison? = some (op, operands)) :
    ∃ head hs span, e = .list (.ident head hs :: operands) span ∧
      Form.classify head = some (.compare op) := by
  unfold comparison? at h
  split at h
  next head hs items span =>
    split at h
    next form =>
      cases h
      exact ⟨head, hs, span, rfl, form⟩
    next => cases h
  next => cases h

theorem list_of_comparison? {e : Expr} {op : CmpOp} {operands : List Expr}
    (h : e.comparison? = some (op, operands)) :
    ∃ items span, e = .list items span ∧ ∀ o ∈ operands, o ∈ items := by
  obtain ⟨head, hs, span, rfl, -⟩ := eq_list_of_comparison? h
  exact ⟨_, span, rfl, fun o ho => List.mem_cons_of_mem _ ho⟩

end TwinLisp.Expr
