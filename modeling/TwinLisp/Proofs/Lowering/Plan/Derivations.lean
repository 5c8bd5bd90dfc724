import TwinLisp.Proofs.Lowering.Plan.Steps

/-! Every derivation keeps to the plan of its source. -/

namespace TwinLisp.Graph.Lowering

mutual

theorem Value.onPlan : ∀ {e : Expr} {s : State} {a : Operand} {s' : State}, Value e s a s' →
    s.Open → ∀ {plan : Plan}, OnPlan plan s → OnPlan (plan.expr e) s'
  | _, _, _, _, .int, _, _, f => f
  | _, _, _, _, .variable _, _, _, f => f.emit _
  -- a scope has no entry of its own in the plan
  | _, _, _, _, .letIn initial inner, h, plan, f => by
    have region := initial.region h
    rw [Plan.expr, Plan.bindings_eq]
    exact
      have opened := (region_enterScope region.isOpen _).isOpen
      (inner.onPlan opened ((initial.onPlan h f).enterScope _)).leaveScope
  | _, _, _, _, .print form _ printed, h, _, f => by
    rw [Plan.expr_plain (by grind)]
    exact printed.onPlan h f
  | _, _, _, _, .store form value _ _, h, _, f => by
    rw [Plan.expr_plain (by grind)]
    exact (value.onPlan h f).perform rfl
  | _, _, _, _, .introduce form value _, h, _, f => by
    rw [Plan.expr_plain (by grind)]
    exact (value.onPlan h f).bindNew (fun _ _ => ⟨rfl, rfl⟩) _ _
  | _, _, _, _, .const form value _, h, _, f => by
    rw [Plan.expr_plain (by grind)]
    exact (value.onPlan h f).bindNew (bindInner_keeps · _) _ _
  | _, _, _, _, .cond form tested first second, h, _, f => by
    rw [Plan.expr_cond form]
    -- the blocks are numbered in the order of their making, as the plan counts them
    have test := tested.onPlan h f
    have region := tested.region h
    have opened := open_openArms region.isOpen
    have arm := first.region (opened _)
    have opened' := open_secondArm region.isOpen arm
    have yes := first.onPlan (opened _) (test.openArms _)
    have no := second.onPlan opened' (yes.jump _ (congrArg (· + 1) test.next))
    exact (no.jump _ (congrArg (· + 2) test.next)).emit _
  | _, _, _, _, .not form value, h, _, f => by
    rw [Plan.expr_plain (by grind)]
    exact ((value.onPlan h f).emit _).emit _
  | _, _, _, _, .logicEmpty form, _, _, f => by
    rw [Plan.expr_logicEmpty form]
    exact f
  -- the merge is made before the operands, and gets the next number
  | _, s, _, _, .logic form tests, h, _, f => by
    rw [Plan.expr_logic form]
    have elsewhere := ne_block_of_le h (Nat.le_refl s.nextBlock)
    have operands := tests.onPlan (open_newBlock h) (Builder.idle_newBlock s.builder) elsewhere
      f.newBlock
    exact (operands.jump _ f.next).emit _
  -- the condition takes the first of the three numbers
  | _, _, _, _, .loop form tested body, h, _, f => by
    rw [Plan.expr_loop form]
    have condition := tested.region (open_openLoop h)
    have test := tested.onPlan (open_openLoop h) f.openLoop
    exact
      have entered := (test.terminate _).positionAt (congrArg (· + 1) f.next)
      have run := body.onPlan (open_openBody h condition) entered
      run.jump _ (congrArg (· + 2) f.next)
  | _, _, _, _, .defun form _ defined body, _, _, f => by
    rw [Plan.expr_defun form]
    exact f.defun defined body.trace fun begun => body.onPlan region_enterUnit.isOpen begun
  | _, _, _, _, .lambda form, _, _, f => by
    rw [Plan.expr_lambda form]
    exact f
  | _, _, _, _, .neg form value, h, _, f => by
    rw [Plan.expr_plain (by grind)]
    exact (value.onPlan h f).emit _
  | _, _, _, _, .arith form first rest, h, _, f => by
    rw [Plan.expr_plain (by grind)]
    exact rest.onPlan (first.region h).isOpen (first.onPlan h f)
  -- a callee that is new is a unit without texts
  | _, _, _, _, .call noForm _ arguments found, h, _, f => by
    rw [Plan.expr_plain (by grind)]
    have args := arguments.onPlan h f
    exact (args.finds (finds_callee args.registered found)).emit _

theorem Test.onPlan : ∀ {e : Expr} {s : State} {v : ValueId} {s' : State}, Test e s v s' →
    s.Open → ∀ {plan : Plan}, OnPlan plan s → OnPlan (plan.expr e) s'
  | _, _, _, _, .compare form first second, h, _, f => by
    rw [Plan.expr_plain (by grind)]
    exact (second.onPlan (first.region h).isOpen (first.onPlan h f)).emit _
  | _, _, _, _, .nonzero _ value, h, _, f => (value.onPlan h f).emit _

theorem Values.onPlan : ∀ {es : List Expr} {s : State} {as : List Operand} {s' : State},
    Values es s as s' → s.Open → ∀ {plan : Plan}, OnPlan plan s → OnPlan (plan.exprs es) s'
  | _, _, _, _, .nil, _, _, f => f
  | _, _, _, _, .cons first rest, h, _, f =>
    rest.onPlan (first.region h).isOpen (first.onPlan h f)

theorem Prints.onPlan : ∀ {es : List Expr} {s s' : State}, Prints es s s' →
    s.Open → ∀ {plan : Plan}, OnPlan plan s → OnPlan (plan.exprs es) s'
  | _, _, _, .nil, _, _, f => f
  | _, s, _, .str rest, h, _, f =>
    have region : s.Region (State.perform _ _) := region_perform (s := (s.intern _).2) h _
    rest.onPlan region.isOpen (f.print h _)
  | _, _, _, .int value rest, h, _, f =>
    have printed := region_perform (value.region h).isOpen (.printInt _)
    rest.onPlan printed.isOpen ((value.onPlan h f).perform rfl)

theorem Operands.onPlan : ∀ {op : ArithOp} {acc : Operand} {es : List Expr} {s : State}
    {r : Operand} {s' : State}, Operands op acc es s r s' →
    s.Open → ∀ {plan : Plan}, OnPlan plan s → OnPlan (plan.exprs es) s'
  | _, _, _, _, _, _, .nil, _, _, f => f
  | _, _, _, _, _, _, .cons value _ rest, h, _, f =>
    have combined : State.Region _ (State.emit _ (.arith _ _ _)) :=
      region_emit (value.region h).isOpen (by nofun)
    rest.onPlan combined.isOpen ((value.onPlan h f).emit _)

theorem Tests.onPlan : ∀ {decides : Bool} {merge : BlockId} {es : List Expr} {s : State}
    {exits : List BlockId} {s' : State}, Tests decides merge es s exits s' → s.Open →
    s.builder.Idle merge → merge ≠ s.block →
    ∀ {plan : Plan}, OnPlan plan s → OnPlan (plan.operands es) s'
  | _, _, _, _, _, _, .nil, _, _, _, _, f => f
  | _, _, _, _, _, _, .cons value rest, h, waits, other, _, f =>
    have compared : State.Region _ (State.emit _ (.compare .ne _ (.const 0))) :=
      (value.region h).andThen h fun h₁ => region_emit h₁ (by nofun)
    have apart := compared.idle waits other
    have apart' := idle_test apart.1 apart.2
    rest.onPlan (open_test compared.isOpen) apart'.1 apart'.2 (((value.onPlan h f).emit _).test _ _ _)

end

end TwinLisp.Graph.Lowering
