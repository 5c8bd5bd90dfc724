import TwinLisp.Proofs.Lowering.Constants.Steps

/-! Every derivation adds the outline of its source. -/

namespace TwinLisp.Graph.Lowering

variable {o o' o'' : Outline} {s s₁ s₂ s₃ : State}

/-- Two arms add what they add on their own, one after the other. -/
theorem adds_arms {c : ValueId} (h : s.Open) (first : (s.openArms c).Region s₂)
    (second : (s₂.jump (s.nextBlock + 2) (s.nextBlock + 1)).Region s₃)
    (yes : Adds o (s.openArms c) s₂)
    (no : Adds o' (s₂.jump (s.nextBlock + 2) (s.nextBlock + 1)) s₃) :
    Adds (o ++ o') s (s₃.jump (s.nextBlock + 2) (s.nextBlock + 2)) := by
  obtain ⟨-, waits, -⟩ := idle_firstArm h first
  obtain ⟨waits', -⟩ := idle_secondArm h first second
  have opened := (adds_openArms s c).before yes
  have crossed : Adds o s (s₂.jump (s.nextBlock + 2) (s.nextBlock + 1)) :=
    opened.quietly (adds_jump waits)
  exact (crossed.andThen no).quietly (adds_jump waits')

theorem outline_logic {decides : Bool} {head : String} {hs span : Span} {args : List Expr}
    (form : Form.classify head = some (if decides then .or else .and)) :
    Outline.ofExpr (.list (.ident head hs :: args) span) = Outline.ofExprs args := by
  cases decides <;> exact Outline.ofExpr_plain (by grind)

mutual

/-- Each rule adds to the outline what its form declares. -/
theorem Value.adds : ∀ {e : Expr} {s : State} {a : Operand} {s' : State}, Value e s a s' →
    s.Open → Adds (.ofExpr e) s s'
  | _, s, _, _, .int, _ => adds_refl s
  | _, _, _, _, .variable _, _ => adds_emit _
  -- the initialisers are outside of the scope
  | _, _, _, _, .letIn initial inner, h => by
    have region := initial.region h
    rw [Outline.ofExpr, Outline.ofBindings_eq]
    exact
      have opened := (region_enterScope region.isOpen _).isOpen
      (((initial.adds h).quietly (adds_enterScope _)).andThen (inner.adds opened)).quietly
        adds_leaveScope
  | _, _, _, _, .print form _ printed, h => by
    rw [Outline.ofExpr_plain (by grind)]
    exact printed.adds h
  -- a store is to a slot that is not frozen, so it concerns no constant
  | _, _, _, _, .store form value known mutable, h => by
    rw [Outline.ofExpr_plain (by grind), Outline.ofExprs_pair]
    exact (value.adds h).quietly (adds_store _ known mutable)
  | _, _, _, _, .introduce form value _, h => by
    rw [Outline.ofExpr_plain (by grind), Outline.ofExprs_pair]
    exact (value.adds h).quietly (adds_bindNew (fun _ _ => ⟨rfl, rfl⟩) (fun _ _ _ => .bindOuter) _)
  -- the one rule that makes a frozen slot
  | _, _, _, _, .const form value _, h => by
    rw [Outline.ofExpr_const form]
    exact (value.adds h).andThen (adds_const (value.region h).isOpen _)
  | _, _, _, _, .cond form tested first second, h => by
    rw [Outline.ofExpr_plain (by grind), Outline.ofExprs, Outline.ofExprs_pair]
    have region := tested.region h
    have opened := open_openArms region.isOpen
    have arm := first.region (opened _)
    have arms := open_secondArm region.isOpen arm
    have met := adds_arms region.isOpen arm (second.region arms) (first.adds (opened _))
      (second.adds arms)
    exact ((tested.adds h).andThen met).quietly (adds_emit _)
  | _, _, _, _, .not form value, h => by
    rw [Outline.ofExpr_plain (by grind), Outline.ofExprs_singleton]
    exact ((value.adds h).quietly (adds_emit _)).quietly (adds_emit _)
  | _, s, _, _, .logicEmpty form, _ => by
    rw [outline_logic form]
    exact adds_refl s
  | _, s, _, _, .logic form tests, h => by
    rw [outline_logic form]
    have elsewhere := ne_block_of_le h (Nat.le_refl s.nextBlock)
    have added := Builder.idle_newBlock s.builder
    have operands := tests.branches (open_newBlock h) added elsewhere
    obtain ⟨waits, -⟩ := idle_branches (s := s.newBlock) added elsewhere operands
    -- the operands are in blocks between the one before and the one where they meet
    have tested := adds_newBlock.before (tests.adds (open_newBlock h) added elsewhere)
    exact (tested.quietly (adds_jump waits)).quietly (adds_emit _)
  -- what the body declares is in a block that control may come to again
  | _, _, _, _, .loop form tested body, h => by
    rw [Outline.ofExpr_loop form, Outline.ofExprs]
    have condition := tested.region (open_openLoop h)
    exact
      have entered := open_openBody h condition
      adds_loop h condition (body.region entered) (tested.adds (open_openLoop h))
        (body.adds entered)
  -- the constants of the body are those of another unit
  | _, _, _, _, .defun form _ defined body, _ => by
    rw [Outline.ofExpr_defun form]
    exact adds_defun defined body.trace (body.adds region_enterUnit.isOpen)
  | _, s, _, _, .lambda form, _ => by
    rw [Outline.ofExpr_lambda form]
    exact adds_refl s
  | _, _, _, _, .neg form value, h => by
    rw [Outline.ofExpr_plain (by grind), Outline.ofExprs_singleton]
    exact (value.adds h).quietly (adds_emit _)
  | _, _, _, _, .arith form first rest, h => by
    rw [Outline.ofExpr_plain (by grind)]
    exact (first.adds h).andThen (rest.adds (first.region h).isOpen)
  | _, _, _, _, .call noForm _ arguments found, h => by
    rw [Outline.ofExpr_plain (by grind)]
    exact ((arguments.adds h).quietly (adds_callee found)).quietly (adds_emit _)

theorem Test.adds : ∀ {e : Expr} {s : State} {v : ValueId} {s' : State}, Test e s v s' →
    s.Open → Adds (.ofExpr e) s s'
  | _, _, _, _, .compare form first second, h => by
    rw [Outline.ofExpr_plain (by grind), Outline.ofExprs_pair]
    exact ((first.adds h).andThen (second.adds (first.region h).isOpen)).quietly (adds_emit _)
  | _, _, _, _, .nonzero _ value, h => (value.adds h).quietly (adds_emit _)

theorem Values.adds : ∀ {es : List Expr} {s : State} {as : List Operand} {s' : State},
    Values es s as s' → s.Open → Adds (.ofExprs es) s s'
  | _, s, _, _, .nil, _ => adds_refl s
  | _, _, _, _, .cons first rest, h =>
    (first.adds h).andThen (rest.adds (first.region h).isOpen)

theorem Prints.adds : ∀ {es : List Expr} {s s' : State}, Prints es s s' → s.Open →
    Adds (.ofExprs es) s s'
  | _, s, _, .nil, _ => adds_refl s
  | _, s, _, .str rest, h =>
    have region : s.Region (State.perform _ _) := region_perform (s := (s.intern _).2) h _
    ((adds_intern _).before (adds_perform (by nofun))).andThen (rest.adds region.isOpen)
  | _, _, _, .int value rest, h =>
    have printed := region_perform (value.region h).isOpen (.printInt _)
    ((value.adds h).quietly (adds_perform (by nofun))).andThen (rest.adds printed.isOpen)

theorem Operands.adds : ∀ {op : ArithOp} {acc : Operand} {es : List Expr} {s : State}
    {r : Operand} {s' : State}, Operands op acc es s r s' → s.Open → Adds (.ofExprs es) s s'
  | _, _, _, s, _, _, .nil, _ => adds_refl s
  | _, _, _, _, _, _, .cons value _ rest, h =>
    have combined : State.Region _ (State.emit _ (.arith _ _ _)) :=
      region_emit (value.region h).isOpen (by nofun)
    ((value.adds h).quietly (adds_emit _)).andThen (rest.adds combined.isOpen)

theorem Tests.adds : ∀ {decides : Bool} {merge : BlockId} {es : List Expr} {s : State}
    {exits : List BlockId} {s' : State}, Tests decides merge es s exits s' → s.Open →
    s.builder.Idle merge → merge ≠ s.block → Adds (.ofExprs es) s s'
  | _, _, _, s, _, _, .nil, _, _, _ => adds_refl s
  | _, _, _, _, _, _, .cons value rest, h, waits, other =>
    have compared : State.Region _ (State.emit _ (.compare .ne _ (.const 0))) :=
      (value.region h).andThen h fun h₁ => region_emit h₁ (by nofun)
    have apart := compared.idle waits other
    have apart' := idle_test apart.1 apart.2
    (((value.adds h).quietly (adds_emit _)).quietly (adds_test apart.1)).andThen
      (rest.adds (open_test compared.isOpen) apart'.1 apart'.2)

end

end TwinLisp.Graph.Lowering
