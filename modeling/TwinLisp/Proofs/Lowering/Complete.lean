import TwinLisp.Proofs.Lowering.Sound

/-! Every derivation is a successful run of lowering. -/

namespace TwinLisp.Graph.Lowering

open Code

variable {s s' : State} {a : Operand} {cs : List Code} {head : String} {hs span : Span}

/-- A body is lowered value by value, and keeps the last one. -/
theorem lowerBody_of_mapM {as : List Operand}
    (run : (cs.mapM Code.value : LowerM (List Operand)) s = .ok as s') :
    lowerBody cs s = .ok (lastOf as) s' := by
  -- the fold forgets all values but the last, and starts with the one of an empty sequence
  suffices ∀ acc, (cs.foldlM (fun _ c => c.value) acc : LowerM Operand) s
      = .ok (as.getLastD acc) s' from this _
  induction cs generalizing s as with
  | nil =>
    intro acc
    cases run
    rfl
  | cons c cs ih =>
    intro acc
    rw [List.mapM_cons] at run
    obtain ⟨b, s₁, first, run⟩ := bind_ok_iff.mp run
    obtain ⟨bs, s₂, others, run⟩ := bind_ok_iff.mp run
    obtain ⟨rfl, rfl⟩ := pure_ok_iff.mp run
    rw [List.foldlM_cons, bind_of_ok first, List.getLastD_cons]
    exact ih others b

theorem inits_of_mapM {bindings : List (LetBinding Expr)} {as : List Operand}
    (run : ((ofExprs (bindings.map (·.init))).mapM Code.value : LowerM (List Operand)) s
      = .ok as s') :
    ((ofBindings bindings).mapM fun (name, c) => return (name, ← c.value) :
      LowerM (List (String × Operand))) s = .ok ((bindings.map (·.name)).zip as) s' := by
  rw [ofExprs_eq_map] at run
  rw [ofBindings_eq_map]
  -- the names are only carried along
  induction bindings generalizing s as with
  | nil =>
    cases run
    rfl
  | cons b bindings ih =>
    simp only [List.map_cons, List.mapM_cons] at run ⊢
    obtain ⟨init, s₁, first, run⟩ := bind_ok_iff.mp run
    obtain ⟨inits, s₂, others, run⟩ := bind_ok_iff.mp run
    obtain ⟨rfl, rfl⟩ := pure_ok_iff.mp run
    refine bind_ok_iff.mpr ⟨_, s₁, bind_ok_iff.mpr ⟨init, s₁, first, rfl⟩, ?_⟩
    exact bind_ok_iff.mpr ⟨_, s₂, ih others, rfl⟩

/-- A list that is headed by the word of a form is lowered as that form. -/
theorem value_list_of_form {form : Form} {args : List Expr}
    (classified : Form.classify head = some form) :
    (ofExpr (.list (.ident head hs :: args) span)).value s
      = lowerForm form (ofExprs args) span s := by
  simp only [ofExpr, ofExprs, lowerList, ofValue, Expr.ident?, classified]

/-- A head that is no form is the name of a unit. -/
theorem value_list_of_call {args : List Expr} (noForm : Form.classify head = none) :
    (ofExpr (.list (.ident head hs :: args) span)).value s
      = lowerCall head (ofExprs args) span s := by
  simp only [ofExpr, ofExprs, lowerList, ofValue, Expr.ident?, noForm]

theorem test_list_of_comparison {op : CmpOp} {args : List Expr}
    (classified : Form.classify head = some (.compare op)) :
    (ofExpr (.list (.ident head hs :: args) span)).test s
      = testComparison op (ofExprs args) span s := by
  simp only [ofExpr, ofExprs, testList, ofValue, List.map_cons, Expr.comparison?, classified,
    List.tail_cons]

/-- A value is tested by comparing it with zero. -/
theorem testNonzero_of_value {value : LowerM Operand} (run : value s = .ok a s') :
    testNonzero value s = .ok s'.fresh (s'.emit (.compare .ne a (.const 0))) :=
  bind_ok_iff.mpr ⟨a, s', run, rfl⟩

/-- An expression that is no comparison is tested by comparing its value with zero. -/
theorem test_of_value {e : Expr} (plain : e.comparison? = none)
    (run : (ofExpr e).value s = .ok a s') :
    (ofExpr e).test s = .ok s'.fresh (s'.emit (.compare .ne a (.const 0))) := by
  -- a list is tested in another way only if it is a comparison
  have tested : (ofExpr e).test s = testNonzero (ofExpr e).value s := by
    cases e with
    | list items span =>
      have same : (Expr.list ((ofExprs items).map (·.source)) span).comparison? = none := by
        rw [← plain]
        exact congrArg (fun es => (Expr.list es span).comparison?) (sources_ofExprs items)
      simp only [ofExpr, testList, same]
    | _ => simp only [ofExpr, ofValue]
  rw [tested]
  exact testNonzero_of_value run

theorem lowerForm_logic (decides : Bool) (args : List Code) :
    lowerForm (if decides then .or else .and) args span = lowerLogic decides args := by
  cases decides <;> rfl

/-- Any argument but a string is printed as an integer. -/
theorem lowerPrintArg_of_ne_str {e : Expr} (plain : ∀ text at', e ≠ .str text at') :
    lowerPrintArg (ofExpr e) = (do Lowering.perform (.printInt (← (ofExpr e).value))) := by
  cases e with
  | str text at' => exact absurd rfl (plain text at')
  | _ => simp only [lowerPrintArg, source_ofExpr]

/-- What has a value is no string, so that its value is printed. -/
theorem lowerPrintArg_of_value {e : Expr} (derived : Value e s a s')
    (run : (ofExpr e).value s = .ok a s') :
    lowerPrintArg (ofExpr e) s = .ok ⟨⟩ (s'.perform (.printInt a)) := by
  have plain : ∀ text at', e ≠ .str text at' := by
    rintro text at' rfl
    cases derived
  rw [lowerPrintArg_of_ne_str plain]
  exact bind_ok_iff.mpr ⟨a, s', run, rfl⟩

theorem lowerPrint_of_forM {args : List Expr} (nonempty : args ≠ [])
    (run : (ofExprs args).forM lowerPrintArg s = .ok ⟨⟩ s') :
    lowerPrint (ofExprs args) span s = .ok (.const 0) s' := by
  cases args with
  | nil => exact absurd rfl nonempty
  | cons e es => exact (bind_of_ok run).trans rfl

theorem lowerArm_of_value {arm : Code} {start merge : BlockId}
    (run : arm.value (s.positionAt start) = .ok a s') :
    lowerArm arm start merge s = .ok (s'.block, a) (s'.terminate (.br merge)) := by
  refine (bind_of_ok (positionAt_apply _)).trans ?_
  refine (bind_of_ok run).trans ?_
  rfl

theorem defineUnit_of_define? {name : String} {arity : Nat} {unit : UnitId}
    (defined : s.define? name arity = some (unit, s')) :
    defineUnit name arity span s = .ok unit s' := by
  -- the two ask the same questions in the same order
  unfold State.define? at defined
  unfold defineUnit
  refine (bind_of_ok get_apply).trans ?_
  cases known : s.signatures.get? name with
  | none =>
    simp only [known] at defined ⊢
    cases defined
    rfl
  | some signature =>
    simp only [known] at defined ⊢
    split at defined
    next => cases defined
    next free =>
      cases defined
      simp only [free]
      rfl

theorem callee_of_callee? {name : String} {arity : Nat} {unit : UnitId}
    (found : s.callee? name arity = some (unit, s')) :
    callee name arity span s = .ok unit s' := by
  unfold State.callee? at found
  unfold callee
  refine (bind_of_ok get_apply).trans ?_
  cases known : s.signatures.get? name with
  | none =>
    simp only [known] at found ⊢
    cases found
    rfl
  | some signature =>
    simp only [known] at found ⊢
    split at found
    next fits =>
      cases found
      simp only [fits, if_true]
      rfl
    next => cases found

theorem parameters_of_names {form : Form} {e : Expr} {names : List String}
    (listed : e.names? = some names) : parameters form (ofExpr e).source s = .ok names s := by
  unfold parameters
  rw [source_ofExpr, listed]
  rfl

theorem inUnit_of_body {unit : UnitId} {params : List String} {act : LowerM Operand}
    (run : act (s.enterUnit unit params) = .ok a s') :
    inUnit unit params.length (do lowerParams params; act) s
      = .ok ⟨⟩ (s'.leaveUnit unit a s) := by
  unfold inUnit
  refine (bind_of_ok get_apply).trans ?_
  -- the state is set, the parameters are stored, the body is run, and the state is put back
  refine (bind_of_ok (set_apply _)).trans ?_
  refine (bind_of_ok ((bind_of_ok (lowerParams_apply params)).trans run)).trans ?_
  rfl

mutual

theorem Value.run : ∀ {e : Expr} {s : State} {a : Operand} {s' : State}, Value e s a s' →
    (ofExpr e).value s = .ok a s'
  | _, _, _, _, .int => rfl
  | _, s, _, _, .variable known => by
    change lowerVariable _ _ s = _
    unfold lowerVariable
    refine (bind_of_ok get_apply).trans ?_
    simp only [known]
    rfl
  | _, _, _, _, .letIn initial inner => by
    -- each rule is the program of its form, run bind by bind: one for every premise
    change lowerLet _ _ _ = _
    refine (bind_of_ok (inits_of_mapM initial.run)).trans ?_
    refine (bind_of_ok (modifyUnit_apply _)).trans ?_
    refine (bind_of_ok (bindAll_apply _)).trans ?_
    refine (bind_of_ok (lowerBody_of_mapM inner.run)).trans ?_
    rfl
  | _, _, _, _, .print form nonempty printed => by
    rw [value_list_of_form form]
    exact lowerPrint_of_forM nonempty printed.run
  | _, _, _, _, .store form value known mutable => by
    rw [value_list_of_form form]
    refine (bind_of_ok rfl).trans ?_
    refine (bind_of_ok value.run).trans ?_
    refine (bind_of_ok get_apply).trans ?_
    simp only [known, mutable]
    rfl
  | _, _, _, _, .introduce form value unknown => by
    rw [value_list_of_form form]
    refine (bind_of_ok rfl).trans ?_
    refine (bind_of_ok value.run).trans ?_
    refine (bind_of_ok get_apply).trans ?_
    simp only [unknown]
    rfl
  | _, _, _, _, .const form value mutable => by
    rw [value_list_of_form form]
    refine (bind_of_ok rfl).trans ?_
    refine (bind_of_ok value.run).trans ?_
    refine (bind_of_ok get_apply).trans ?_
    simp only [mutable]
    rfl
  -- the three blocks are made before either arm is lowered
  | _, _, _, _, .cond form tested first second => by
    rw [value_list_of_form form]
    refine (bind_of_ok tested.run).trans ?_
    refine (bind_of_ok newBlock_apply).trans ?_
    refine (bind_of_ok newBlock_apply).trans ?_
    refine (bind_of_ok newBlock_apply).trans ?_
    refine (bind_of_ok (terminate_apply _)).trans ?_
    simp only [nextBlock_newBlock]
    refine (bind_of_ok (lowerArm_of_value first.run)).trans ?_
    refine (bind_of_ok (lowerArm_of_value second.run)).trans ?_
    rfl
  | _, _, _, _, .not form value => by
    rw [value_list_of_form form, ← fresh_emit]
    exact (bind_of_ok value.run).trans rfl
  | _, _, _, _, .logicEmpty form => by
    rw [value_list_of_form form, lowerForm_logic]
    rfl
  | _, _, _, _, .logic form tests => by
    rw [value_list_of_form form, lowerForm_logic]
    refine (bind_of_ok newBlock_apply).trans ?_
    refine (bind_of_ok tests.run).trans ?_
    rfl
  -- the condition is tested in the first of the three blocks, at every round
  | _, _, _, _, .loop form tested body => by
    rw [value_list_of_form form]
    refine (bind_of_ok newBlock_apply).trans ?_
    refine (bind_of_ok newBlock_apply).trans ?_
    refine (bind_of_ok newBlock_apply).trans ?_
    refine (bind_of_ok (terminate_apply _)).trans ?_
    refine (bind_of_ok (positionAt_apply _)).trans ?_
    simp only [nextBlock_newBlock]
    refine (bind_of_ok tested.run).trans ?_
    refine (bind_of_ok (terminate_apply _)).trans ?_
    refine (bind_of_ok (positionAt_apply _)).trans ?_
    refine (bind_of_ok (lowerBody_of_mapM body.run)).trans ?_
    rfl
  | _, _, _, _, .defun form listed defined body => by
    rw [value_list_of_form form]
    refine (bind_of_ok rfl).trans ?_
    refine (bind_of_ok (parameters_of_names listed)).trans ?_
    refine (bind_of_ok (defineUnit_of_define? defined)).trans ?_
    refine (bind_of_ok (inUnit_of_body (lowerBody_of_mapM body.run))).trans ?_
    rfl
  | _, _, _, _, .lambda form => by
    rw [value_list_of_form form]
    rfl
  | _, _, _, _, .neg form value => by
    rw [value_list_of_form form]
    exact (bind_of_ok value.run).trans rfl
  | _, _, _, _, .arith form first rest => by
    rw [value_list_of_form form]
    exact (bind_of_ok first.run).trans rest.run
  -- the arguments come before the callee is looked for
  | _, _, _, _, .call noForm unknown arguments found => by
    rw [value_list_of_call noForm]
    refine (bind_of_ok get_apply).trans ?_
    simp only [unknown]
    refine (bind_of_ok arguments.run).trans ?_
    refine (bind_of_ok (callee_of_callee? found)).trans ?_
    rfl

theorem Test.run : ∀ {e : Expr} {s : State} {v : ValueId} {s' : State}, Test e s v s' →
    (ofExpr e).test s = .ok v s'
  | _, _, _, _, .compare form first second => by
    rw [test_list_of_comparison form]
    refine (bind_of_ok first.run).trans ?_
    exact (bind_of_ok second.run).trans rfl
  | _, _, _, _, .nonzero plain value => test_of_value plain value.run

theorem Values.run : ∀ {es : List Expr} {s : State} {as : List Operand} {s' : State},
    Values es s as s' → ((ofExprs es).mapM Code.value : LowerM (List Operand)) s = .ok as s'
  | _, _, _, _, .nil => rfl
  | _, _, _, _, .cons first rest => by
    rw [ofExprs, List.mapM_cons]
    refine (bind_of_ok first.run).trans ?_
    exact (bind_of_ok rest.run).trans rfl

theorem Prints.run : ∀ {es : List Expr} {s s' : State}, Prints es s s' →
    (ofExprs es).forM lowerPrintArg s = .ok ⟨⟩ s'
  | _, _, _, .nil => rfl
  | _, _, _, .str rest => (bind_of_ok rfl).trans rest.run
  | _, _, _, .int value rest =>
    (bind_of_ok (lowerPrintArg_of_value value value.run)).trans rest.run

theorem Operands.run : ∀ {op : ArithOp} {acc : Operand} {es : List Expr} {s : State}
    {r : Operand} {s' : State}, Operands op acc es s r s' →
    lowerOperands op acc (ofExprs es) s = .ok r s'
  | _, _, _, _, _, _, .nil => rfl
  | _, _, _, _, _, _, .cons value divisor rest => by
    refine (bind_of_ok value.run).trans ?_
    simp only [divisor, if_false]
    exact (bind_of_ok rfl).trans rest.run

theorem Tests.run : ∀ {decides : Bool} {merge : BlockId} {es : List Expr} {s : State}
    {exits : List BlockId} {s' : State}, Tests decides merge es s exits s' →
    lowerTests decides merge (ofExprs es) s
      = .ok (exits.map (·, decided decides)) s'
  | _, _, _, _, _, _, .nil => rfl
  | _, _, _, _, _, _, .cons value rest => by
    refine (bind_of_ok (testNonzero_of_value value.run)).trans ?_
    refine (bind_of_ok newBlock_apply).trans ?_
    refine (bind_of_ok currentBlock_apply).trans ?_
    refine (bind_of_ok (terminate_apply _)).trans ?_
    refine (bind_of_ok (positionAt_apply _)).trans ?_
    exact (bind_of_ok rest.run).trans rfl

end

theorem lowerMain_of_values {program : List Expr} {results : List Operand}
    (derived : Values program s results s') : lowerMain program s = .ok ⟨⟩ s'.finishMain :=
  (bind_of_ok (lowerBody_of_mapM derived.run)).trans rfl

/-- The successful runs on a program are its derivations. -/
theorem lowerMain_ok_iff {program : List Expr} :
    lowerMain program s = .ok ⟨⟩ s' ↔
      ∃ results s₁, Values program s results s₁ ∧ s' = s₁.finishMain := by
  constructor
  · exact values_of_lowerMain
  · rintro ⟨results, s₁, derived, rfl⟩
    exact lowerMain_of_values derived

end TwinLisp.Graph.Lowering
