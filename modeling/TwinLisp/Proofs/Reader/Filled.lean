import TwinLisp.Proofs.Reader.Sound

/-! What is read has a body in each of its `let` forms. -/

namespace TwinLisp

/-- Outside quoted data, no `let` form is without a body. -/
inductive Expr.Filled : Expr → Prop
  | int {n span} : Filled (.int n span)
  | str {text span} : Filled (.str text span)
  | ident {name span} : Filled (.ident name span)
  | quote {datum style span} : Filled (.quote datum style span)
  | list {items span} (parts : ∀ e ∈ items, Filled e) : Filled (.list items span)
  | letIn {bindings body span} (inits : ∀ b ∈ bindings, Filled b.init) (nonempty : body ≠ [])
    (inner : ∀ e ∈ body, Filled e) : Filled (.letIn bindings body span)

namespace Reader

mutual

theorem Derives.filled : ∀ {mode : Mode} {ts : List Token} {e : Expr}, Derives mode ts e → e.Filled
  | _, _, _, .int _ => .int
  | _, _, _, .str _ => .str
  | _, _, _, .ident _ => .ident
  | _, _, _, .quoted _ _ => .quote
  | _, _, _, .list _ _ items _ => .list items.filled
  | _, _, _, .letIn _ _ _ bound _ body nonempty _ => .letIn bound.filled nonempty body.filled
  | _, _, _, .longQuoted _ _ _ _ => .quote

theorem DerivesAll.filled : ∀ {mode : Mode} {ts : List Token} {es : List Expr},
    DerivesAll mode ts es → ∀ e ∈ es, e.Filled
  | _, _, _, .nil => nofun
  | _, _, _, .cons first rest => List.forall_mem_cons.mpr ⟨first.filled, rest.filled⟩

theorem DerivesBindings.filled : ∀ {ts : List Token} {bindings : List (LetBinding Expr)},
    DerivesBindings ts bindings → ∀ b ∈ bindings, b.init.Filled
  | _, _, .nil => nofun
  | _, _, .cons _ _ value _ rest => List.forall_mem_cons.mpr ⟨value.filled, rest.filled⟩

end

theorem filled_of_read {source : String} {program : List Expr}
    (read : read source = .ok program) : ∀ e ∈ program, e.Filled := by
  obtain ⟨tokens, -, read⟩ := except_bind_ok_iff.mp read
  exact (derives_of_readTokens read).filled

end Reader

end TwinLisp
