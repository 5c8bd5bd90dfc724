import TwinLisp.Proofs.Lowering.Simulation.Steps

/-! Whatever one run lowers, so does the other, if functions are mentioned with the same number of
arguments everywhere. -/

namespace TwinLisp.Graph.Lowering

variable {M : List Mention}

/-- All that expressions mention is in `M`. -/
abbrev Within (M : List Mention) (es : List Expr) : Prop := ∀ m ∈ Mention.ofExprs es, m ∈ M

theorem within_cons {e : Expr} {es : List Expr} :
    Within M (e :: es) ↔ (∀ m ∈ Mention.ofExpr e, m ∈ M) ∧ Within M es :=
  List.forall_mem_append

mutual

/-- What one run derives the other does too, from any state that is paired with the first. -/
theorem Value.paired : ∀ {e : Expr} {s : State} {a : Operand} {s' : State}, Value e s a s' →
    (∀ m ∈ Mention.ofExpr e, m ∈ M) → ∀ {t}, Paired M s t → ∃ t', Value e t a t' ∧ Paired M s' t'
  | _, _, _, _, .int, _, t, p => ⟨t, .int, p⟩
  | _, _, _, _, .variable known, _, t, p => by
    refine ⟨_, ?_, p.emit (by nofun)⟩
    -- values are numbered alike in both runs
    rw [← p.fresh]
    exact .variable ((p.lookup _).trans known)
  | _, _, _, _, .letIn initial inner, sub, _, p => by
    rw [Mention.ofExpr, Mention.ofBindings_eq] at sub
    obtain ⟨sub, sub'⟩ := List.forall_mem_append.mp sub
    obtain ⟨t₁, initial', p₁⟩ := initial.paired sub p
    obtain ⟨t₂, inner', p₂⟩ := inner.paired sub' (p₁.enterScope _)
    exact ⟨_, .letIn initial' inner', p₂.leaveScope⟩
  -- the strings are interned in the same order
  | _, _, _, _, .print form nonempty printed, sub, _, p => by
    rw [Mention.ofExpr_form form (by simp)] at sub
    obtain ⟨t', printed', p'⟩ := printed.paired sub p
    exact ⟨t', .print form nonempty printed', p'⟩
  -- the same names are bound, to the same slots, frozen alike
  | _, _, _, _, .store form value known mutable, sub, _, p => by
    rw [Mention.ofExpr_form form (by simp)] at sub
    obtain ⟨-, sub⟩ := within_cons.mp sub
    obtain ⟨t₁, value', p₁⟩ := value.paired (within_cons.mp sub).1 p
    exact ⟨_, .store form value' ((p₁.lookup _).trans known) ((p₁.isFrozen _).trans mutable),
      p₁.perform _⟩
  | _, _, _, _, .introduce form value unknown, sub, _, p => by
    rw [Mention.ofExpr_form form (by simp)] at sub
    obtain ⟨-, sub⟩ := within_cons.mp sub
    obtain ⟨t₁, value', p₁⟩ := value.paired (within_cons.mp sub).1 p
    exact ⟨_, .introduce form value' ((p₁.lookup _).trans unknown),
      p₁.bindNew Paired.binds_outer _ _ _⟩
  | _, _, _, _, @Value.const _ _ name _ _ _ _ _ s₁ form value mutable, sub, _, p => by
    rw [Mention.ofExpr_form form (by simp)] at sub
    obtain ⟨-, sub⟩ := within_cons.mp sub
    obtain ⟨t₁, value', p₁⟩ := value.paired (within_cons.mp sub).1 p
    have mutable' : (t₁.current.lookup name).any t₁.current.isFrozen = false := by
      rw [p₁.lookup, funext p₁.isFrozen]
      exact mutable
    exact ⟨_, .const form value' mutable', p₁.bindNew Paired.binds_inner _ _ _⟩
  | _, _, _, _, .cond form tested first second, sub, _, p => by
    rw [Mention.ofExpr_form form (by simp)] at sub
    obtain ⟨sub₁, sub⟩ := within_cons.mp sub
    obtain ⟨sub₂, sub₃⟩ := within_cons.mp sub
    obtain ⟨t₁, tested', p₁⟩ := tested.paired sub₁ p
    obtain ⟨t₂, first', p₂⟩ := first.paired sub₂ (p₁.openArms _)
    obtain ⟨t₃, second', p₃⟩ := second.paired (within_cons.mp sub₃).1 (p₂.jump _ _)
    refine ⟨_, ?_, (p₃.jump _ _).emit (by nofun)⟩
    -- and so are blocks
    rw [← p₁.nextBlock] at second' ⊢
    rw [← p₃.fresh, ← p₂.block, ← p₃.block]
    exact .cond form tested' first' second'
  | _, _, _, _, .not form value, sub, _, p => by
    rw [Mention.ofExpr_form form (by simp)] at sub
    obtain ⟨t₁, value', p₁⟩ := value.paired (within_cons.mp sub).1 p
    refine ⟨_, ?_, (p₁.emit (by nofun)).emit (by nofun)⟩
    rw [← p₁.fresh]
    exact .not form value'
  | _, _, _, _, .logicEmpty form, _, t, p => ⟨t, .logicEmpty form, p⟩
  | _, _, _, _, .logic form tests, sub, _, p => by
    rw [Mention.ofExpr_form form (by split <;> simp)] at sub
    obtain ⟨t₁, tests', p₁⟩ := tests.paired sub p.newBlock
    refine ⟨_, ?_, (p₁.jump _ _).emit (by nofun)⟩
    rw [← p.nextBlock] at tests' ⊢
    rw [← p₁.fresh, ← p₁.block]
    exact .logic form tests'
  | _, _, _, _, .loop form tested body, sub, _, p => by
    rw [Mention.ofExpr_form form (by simp)] at sub
    obtain ⟨sub₁, sub₂⟩ := within_cons.mp sub
    obtain ⟨t₁, tested', p₁⟩ := tested.paired sub₁ p.openLoop
    obtain ⟨t₂, body', p₂⟩ := body.paired sub₂ ((p₁.terminate _).positionAt _)
    refine ⟨_, ?_, p₂.jump _ _⟩
    rw [← p.nextBlock] at body' ⊢
    exact .loop form tested' body'
  | _, _, _, _, .defun form listed defined body, sub, _, p => by
    obtain ⟨items, ps, rfl, same⟩ := list_of_names? listed
    rw [Mention.ofExpr_defun form, ← same] at sub
    obtain ⟨here, sub⟩ := List.forall_mem_cons.mp sub
    -- units need not be: it is their names that correspond
    obtain ⟨unit', t₁, defined', p₁⟩ := p.beginUnit here defined
    obtain ⟨t₂, body', p₂⟩ := body.paired sub p₁
    have grows := (body.trace.registered p₁.left).2
    have grows' := (body'.trace.registered p₁.right).2
    exact ⟨_, .defun form listed defined' body', p.endUnit defined defined' grows grows' p₂ _⟩
  | _, _, _, _, .lambda form, _, t, p => ⟨t, .lambda form, p⟩
  | _, _, _, _, .neg form value, sub, _, p => by
    rw [Mention.ofExpr_form form (by simp)] at sub
    obtain ⟨t₁, value', p₁⟩ := value.paired (within_cons.mp sub).1 p
    refine ⟨_, ?_, p₁.emit (by nofun)⟩
    rw [← p₁.fresh]
    exact .neg form value'
  | _, _, _, _, .arith form first rest, sub, _, p => by
    rw [Mention.ofExpr_form form (by simp)] at sub
    obtain ⟨sub₁, sub₂⟩ := within_cons.mp sub
    obtain ⟨t₁, first', p₁⟩ := first.paired sub₁ p
    obtain ⟨t₂, rest', p₂⟩ := rest.paired sub₂ p₁
    exact ⟨t₂, .arith form first' rest', p₂⟩
  -- the callee may be new in one run and announced in the other
  | _, _, _, _, .call noForm unknown arguments found, sub, _, p => by
    rw [Mention.ofExpr_call noForm, ← arguments.length_eq] at sub
    obtain ⟨sub, here⟩ := List.forall_mem_append.mp sub
    obtain ⟨t₁, arguments', p₁⟩ := arguments.paired sub p
    obtain ⟨unit', t₂, found', p₂, same⟩ := p₁.callee (here _ List.mem_cons_self) found
    refine ⟨_, ?_, p₂.emit_call same _⟩
    rw [← p₂.fresh]
    exact .call noForm ((p.lookup _).trans unknown) arguments' found'

theorem Test.paired : ∀ {e : Expr} {s : State} {v : ValueId} {s' : State}, Test e s v s' →
    (∀ m ∈ Mention.ofExpr e, m ∈ M) → ∀ {t}, Paired M s t → ∃ t', Test e t v t' ∧ Paired M s' t'
  | _, _, _, _, .compare form first second, sub, _, p => by
    rw [Mention.ofExpr_form form (by simp)] at sub
    obtain ⟨sub₁, sub₂⟩ := within_cons.mp sub
    obtain ⟨t₁, first', p₁⟩ := first.paired sub₁ p
    obtain ⟨t₂, second', p₂⟩ := second.paired (within_cons.mp sub₂).1 p₁
    refine ⟨_, ?_, p₂.emit (by nofun)⟩
    rw [← p₂.fresh]
    exact .compare form first' second'
  | _, _, _, _, .nonzero plain value, sub, _, p => by
    obtain ⟨t₁, value', p₁⟩ := value.paired sub p
    refine ⟨_, ?_, p₁.emit (by nofun)⟩
    rw [← p₁.fresh]
    exact .nonzero plain value'

theorem Values.paired : ∀ {es : List Expr} {s : State} {as : List Operand} {s' : State},
    Values es s as s' → Within M es → ∀ {t}, Paired M s t → ∃ t', Values es t as t' ∧ Paired M s' t'
  | _, _, _, _, .nil, _, t, p => ⟨t, .nil, p⟩
  | _, _, _, _, .cons first rest, sub, _, p => by
    obtain ⟨sub₁, sub₂⟩ := within_cons.mp sub
    obtain ⟨t₁, first', p₁⟩ := first.paired sub₁ p
    obtain ⟨t₂, rest', p₂⟩ := rest.paired sub₂ p₁
    exact ⟨t₂, .cons first' rest', p₂⟩

theorem Prints.paired : ∀ {es : List Expr} {s s' : State}, Prints es s s' → Within M es →
    ∀ {t}, Paired M s t → ∃ t', Prints es t t' ∧ Paired M s' t'
  | _, _, _, .nil, _, t, p => ⟨t, .nil, p⟩
  | _, _, _, .str rest, sub, _, p => by
    obtain ⟨t', rest', p'⟩ := rest.paired (within_cons.mp sub).2 ((p.intern _).perform _)
    rw [← p.interned] at rest'
    exact ⟨t', .str rest', p'⟩
  | _, _, _, .int value rest, sub, _, p => by
    obtain ⟨sub₁, sub₂⟩ := within_cons.mp sub
    obtain ⟨t₁, value', p₁⟩ := value.paired sub₁ p
    obtain ⟨t₂, rest', p₂⟩ := rest.paired sub₂ (p₁.perform _)
    exact ⟨t₂, .int value' rest', p₂⟩

theorem Operands.paired : ∀ {op : ArithOp} {acc : Operand} {es : List Expr} {s : State}
    {r : Operand} {s' : State}, Operands op acc es s r s' → Within M es →
    ∀ {t}, Paired M s t → ∃ t', Operands op acc es t r t' ∧ Paired M s' t'
  | _, _, _, _, _, _, .nil, _, t, p => ⟨t, .nil, p⟩
  | _, _, _, _, _, _, .cons value divisor rest, sub, _, p => by
    obtain ⟨sub₁, sub₂⟩ := within_cons.mp sub
    obtain ⟨t₁, value', p₁⟩ := value.paired sub₁ p
    obtain ⟨t₂, rest', p₂⟩ := rest.paired sub₂ (p₁.emit (by nofun))
    rw [← p₁.fresh] at rest'
    exact ⟨t₂, .cons value' divisor rest', p₂⟩

theorem Tests.paired : ∀ {decides : Bool} {merge : BlockId} {es : List Expr} {s : State}
    {exits : List BlockId} {s' : State}, Tests decides merge es s exits s' → Within M es →
    ∀ {t}, Paired M s t → ∃ t', Tests decides merge es t exits t' ∧ Paired M s' t'
  | _, _, _, _, _, _, .nil, _, t, p => ⟨t, .nil, p⟩
  | _, _, _, _, _, _, .cons value rest, sub, _, p => by
    obtain ⟨sub₁, sub₂⟩ := within_cons.mp sub
    obtain ⟨t₁, value', p₁⟩ := value.paired sub₁ p
    obtain ⟨t₂, rest', p₂⟩ := rest.paired sub₂ ((p₁.emit (by nofun)).test _ _ _)
    rw [← p₁.fresh] at rest'
    refine ⟨t₂, ?_, p₂⟩
    rw [← p₁.block]
    exact .cons value' rest'

end

end TwinLisp.Graph.Lowering
