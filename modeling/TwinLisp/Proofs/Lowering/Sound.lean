import TwinLisp.Proofs.Lowering.Derivation

/-! Every successful run of lowering is a derivation. -/

namespace TwinLisp.Graph.Lowering

namespace Code

/-- The runs of the code are derivations for its source. -/
structure Derives (c : Code) : Prop where
  value : ∀ {s a s'}, c.value s = .ok a s' → Value c.source s a s'
  test : ∀ {s v s'}, c.test s = .ok v s' → Test c.source s v s'

theorem source_ofExpr (e : Expr) : (ofExpr e).source = e := by
  cases e <;> simp only [ofExpr, ofValue]

theorem ofExprs_eq_map (es : List Expr) : ofExprs es = es.map ofExpr := by
  induction es with
  | nil => simp only [ofExprs, List.map_nil]
  | cons e es ih => simp only [ofExprs, List.map_cons, ih]

theorem ofBindings_eq_map (bs : List (LetBinding Expr)) :
    ofBindings bs = bs.map fun b => (b.name, ofExpr b.init) := by
  induction bs with
  | nil => simp only [ofBindings, List.map_nil]
  | cons b bs ih => simp only [ofBindings, List.map_cons, ih]

end Code

open Code

variable {s s' : State} {a : Operand} {cs : List Code}

abbrev sources (cs : List Code) : List Expr := cs.map (·.source)

theorem sources_ofExprs (es : List Expr) : sources (ofExprs es) = es := by
  rw [ofExprs_eq_map, sources, List.map_map]
  exact (List.map_congr_left fun e _ => source_ofExpr e).trans (List.map_id es)

/-- What is no comparison is tested through its value. -/
theorem test_of_testNonzero {e : Expr} {value : LowerM Operand} {v : ValueId}
    (plain : e.comparison? = none) (derives : ∀ {s a s'}, value s = .ok a s' → Value e s a s')
    (run : testNonzero value s = .ok v s') : Test e s v s' := by
  obtain ⟨_, _, hvalue, run⟩ := bind_ok_iff.mp run
  cases run
  exact .nonzero plain (derives hvalue)

/-- What has only a value is tested for not being zero. -/
theorem derives_ofValue {e : Expr} {value : LowerM Operand} (plain : e.comparison? = none)
    (derives : ∀ {s a s'}, value s = .ok a s' → Value e s a s') : (ofValue e value).Derives :=
  ⟨derives, test_of_testNonzero plain derives⟩

theorem values_of_mapM {as : List Operand} (derive : ∀ c ∈ cs, c.Derives)
    (run : (cs.mapM Code.value : LowerM (List Operand)) s = .ok as s') : Values (sources cs) s as s' := by
  induction cs generalizing s as with
  | nil => cases run; exact .nil
  | cons c cs ih =>
    rw [List.mapM_cons] at run
    obtain ⟨_, _, first, run⟩ := bind_ok_iff.mp run
    obtain ⟨_, _, rest, run⟩ := bind_ok_iff.mp run
    obtain ⟨rfl, rfl⟩ := pure_ok_iff.mp run
    exact .cons ((derive c List.mem_cons_self).value first)
      (ih (fun c hc => derive c (List.mem_cons_of_mem _ hc)) rest)

theorem values_of_foldlM {acc : Operand} (derive : ∀ c ∈ cs, c.Derives)
    (run : (cs.foldlM (fun _ c => c.value) acc : LowerM Operand) s = .ok a s') :
    ∃ as, Values (sources cs) s as s' ∧ a = as.getLastD acc := by
  induction cs generalizing s acc with
  | nil => cases run; exact ⟨[], .nil, rfl⟩
  | cons c cs ih =>
    rw [List.foldlM_cons] at run
    obtain ⟨b, _, first, run⟩ := bind_ok_iff.mp run
    obtain ⟨as, rest, rfl⟩ := ih (fun c hc => derive c (List.mem_cons_of_mem _ hc)) run
    refine ⟨b :: as, .cons ((derive c List.mem_cons_self).value first) rest, ?_⟩
    rw [List.getLastD_cons]

/-- The value of a body is that of its last form. -/
theorem values_of_lowerBody (derive : ∀ c ∈ cs, c.Derives) (run : lowerBody cs s = .ok a s') :
    ∃ as, Values (sources cs) s as s' ∧ a = lastOf as :=
  values_of_foldlM derive run

/-- A target is a name, and looking at it changes nothing. -/
theorem ident_of_target {form : Form} {e : Expr} {name : String}
    (run : target form e s = .ok name s') : s = s' ∧ ∃ span, e = .ident name span := by
  unfold target at run
  cases h : e.ident? with
  | none =>
    simp only [h] at run
    exact absurd run fail_ne_ok
  | some n =>
    simp only [h] at run
    cases run
    exact ⟨rfl, Expr.ident_of_ident? h⟩

/-- A parameter list that is accepted is a list of names. -/
theorem names_of_parameters {form : Form} {e : Expr} {names : List String}
    (run : parameters form e s = .ok names s') : s = s' ∧ e.names? = some names := by
  unfold parameters at run
  cases h : e.names? with
  | none =>
    simp only [h] at run
    exact absurd run fail_ne_ok
  | some ns =>
    simp only [h] at run
    cases run
    exact ⟨rfl, rfl⟩

/-- The head of a comparison is its operator. -/
theorem head_of_comparison? {op : CmpOp} {operands : List Expr} {span : Span}
    (comparison : (Expr.list (sources cs) span).comparison? = some (op, operands)) :
    ∃ name hs c rest, cs = c :: rest ∧ c.source = .ident name hs ∧
      Form.classify name = some (.compare op) := by
  cases cs with
  | nil => cases comparison
  | cons c rest =>
    cases hsource : c.source with
    | ident name hs =>
      simp only [sources, List.map_cons, hsource, Expr.comparison?] at comparison
      split at comparison
      next op' classified =>
        cases comparison
        exact ⟨name, hs, c, rest, rfl, hsource, classified⟩
      next => cases comparison
    | _ =>
      simp only [sources, List.map_cons, hsource, Expr.comparison?] at comparison
      cases comparison

section Forms

variable {head : String} {hs span : Span} (derive : ∀ c ∈ cs, c.Derives)

include derive

theorem prints_of_forM (run : (cs.forM lowerPrintArg) s = .ok ⟨⟩ s') :
    Prints (sources cs) s s' := by
  induction cs generalizing s with
  | nil => cases run; exact .nil
  | cons c cs ih =>
    obtain ⟨_, s₁, first, rest⟩ := bind_ok_iff.mp run
    have rest := ih (fun c hc => derive c (List.mem_cons_of_mem _ hc)) rest
    have derived := @(derive c List.mem_cons_self).value
    obtain ⟨source, value, test⟩ := c
    cases source with
    | str text sp => cases first; exact .str rest
    | _ =>
      obtain ⟨_, _, hvalue, first⟩ := bind_ok_iff.mp first
      cases first
      exact .int (derived hvalue) rest

theorem value_of_lowerPrint (form : Form.classify head = some .print)
    (run : lowerPrint cs span s = .ok a s') :
    Value (.list (.ident head hs :: sources cs) span) s a s' := by
  unfold lowerPrint at run
  by_cases empty : cs.isEmpty = true
  · simp only [empty, if_true] at run
    obtain ⟨_, _, failed, -⟩ := bind_ok_iff.mp run
    exact absurd failed fail_ne_ok
  · simp only [empty] at run
    obtain ⟨_, _, printed, run⟩ := bind_ok_iff.mp run
    cases run
    have nonempty : sources cs ≠ [] := by
      rintro h
      exact empty (List.isEmpty_iff.mpr (List.map_eq_nil_iff.mp h))
    exact .print form nonempty (prints_of_forM derive printed)

theorem value_of_lowerSet (form : Form.classify head = some .set)
    (run : lowerSet cs span s = .ok a s') :
    Value (.list (.ident head hs :: sources cs) span) s a s' := by
  unfold lowerSet at run
  split at run
  next place init =>
    obtain ⟨name, _, named, run⟩ := bind_ok_iff.mp run
    obtain ⟨rfl, ns, hplace⟩ := ident_of_target named
    obtain ⟨value, s₁, hvalue, run⟩ := bind_ok_iff.mp run
    obtain ⟨_, _, got, run⟩ := bind_ok_iff.mp run
    cases got
    have derived := (derive init (by simp)).value hvalue
    simp only [sources, List.map_cons, List.map_nil, hplace]
    -- where the name is known decides between a new variable, a store and a failure
    cases known : s₁.current.lookup name with
    | none =>
      simp only [known] at run
      obtain ⟨_, _, bound, run⟩ := bind_ok_iff.mp run
      cases bound
      cases run
      exact .introduce form derived known
    | some slot =>
      simp only [known] at run
      cases frozen : s₁.current.isFrozen slot with
      | true =>
        simp only [frozen, if_true] at run
        obtain ⟨_, _, failed, -⟩ := bind_ok_iff.mp run
        exact absurd failed fail_ne_ok
      | false =>
        simp only [frozen] at run
        obtain ⟨_, _, stored, run⟩ := bind_ok_iff.mp run
        cases stored
        cases run
        exact .store form derived known frozen
  next => exact absurd run fail_ne_ok

theorem value_of_lowerConst (form : Form.classify head = some .const)
    (run : lowerConst cs span s = .ok a s') :
    Value (.list (.ident head hs :: sources cs) span) s a s' := by
  unfold lowerConst at run
  split at run
  next place init =>
    obtain ⟨name, _, named, run⟩ := bind_ok_iff.mp run
    obtain ⟨rfl, ns, hplace⟩ := ident_of_target named
    obtain ⟨value, s₁, hvalue, run⟩ := bind_ok_iff.mp run
    obtain ⟨_, _, got, run⟩ := bind_ok_iff.mp run
    cases got
    have derived := (derive init (by simp)).value hvalue
    simp only [sources, List.map_cons, List.map_nil, hplace]
    -- a constant is bound anew unless the name is frozen where it is found
    cases frozen : (s₁.current.lookup name).any s₁.current.isFrozen with
    | true =>
      simp only [frozen, if_true] at run
      obtain ⟨_, _, failed, -⟩ := bind_ok_iff.mp run
      exact absurd failed fail_ne_ok
    | false =>
      simp only [frozen] at run
      obtain ⟨_, _, bound, run⟩ := bind_ok_iff.mp run
      cases bound
      cases run
      exact .const form derived frozen
  next => exact absurd run fail_ne_ok

theorem value_of_lowerIf (form : Form.classify head = some .cond)
    (run : lowerIf cs span s = .ok a s') :
    Value (.list (.ident head hs :: sources cs) span) s a s' := by
  unfold lowerIf at run
  split at run
  next test yes no =>
    obtain ⟨c, s₁, tested, run⟩ := bind_ok_iff.mp run
    -- the steps that cannot fail are run, down to the first arm
    replace run := (bind_of_ok newBlock_apply).symm.trans run
    replace run := (bind_of_ok newBlock_apply).symm.trans run
    replace run := (bind_of_ok newBlock_apply).symm.trans run
    replace run := (bind_of_ok (terminate_apply _)).symm.trans run
    simp only [nextBlock_newBlock] at run
    obtain ⟨_, _, arm, run⟩ := bind_ok_iff.mp run
    obtain ⟨b₁, s₂, first, ended⟩ :=
      bind_ok_iff.mp ((bind_of_ok (positionAt_apply _)).symm.trans arm)
    replace ended := (bind_of_ok currentBlock_apply).symm.trans ended
    replace ended := (bind_of_ok (terminate_apply _)).symm.trans ended
    obtain ⟨rfl, rfl⟩ := pure_ok_iff.mp ended
    obtain ⟨_, _, arm, run⟩ := bind_ok_iff.mp run
    obtain ⟨b₂, s₃, second, ended⟩ :=
      bind_ok_iff.mp ((bind_of_ok (positionAt_apply _)).symm.trans arm)
    replace ended := (bind_of_ok currentBlock_apply).symm.trans ended
    replace ended := (bind_of_ok (terminate_apply _)).symm.trans ended
    obtain ⟨rfl, rfl⟩ := pure_ok_iff.mp ended
    replace run := (bind_of_ok (positionAt_apply _)).symm.trans run
    cases (emit_apply _).symm.trans run
    rw [fresh_positionAt, fresh_terminate]
    exact .cond form ((derive test (by simp)).test tested) ((derive yes (by simp)).value first)
      ((derive no (by simp)).value second)
  next => exact absurd run fail_ne_ok

theorem value_of_lowerNot (form : Form.classify head = some .not)
    (run : lowerNot cs span s = .ok a s') :
    Value (.list (.ident head hs :: sources cs) span) s a s' := by
  unfold lowerNot at run
  split at run
  next operand =>
    obtain ⟨_, s₁, value, run⟩ := bind_ok_iff.mp run
    replace run := (bind_of_ok (compare_apply _ _ _)).symm.trans run
    cases (emit_apply _).symm.trans run
    rw [fresh_emit]
    exact .not form ((derive operand (by simp)).value value)
  next => exact absurd run fail_ne_ok

theorem tests_of_lowerTests {decides : Bool} {merge : BlockId}
    {edges : List (BlockId × Operand)} (run : lowerTests decides merge cs s = .ok edges s') :
    ∃ exits, Tests decides merge (sources cs) s exits s' ∧
      edges = exits.map (·, decided decides) := by
  induction cs generalizing s edges with
  | nil => cases run; exact ⟨[], .nil, rfl⟩
  | cons c cs ih =>
    obtain ⟨_, _, compared, run⟩ := bind_ok_iff.mp run
    obtain ⟨_, s₁, value, compared⟩ := bind_ok_iff.mp compared
    cases (compare_apply _ _ _).symm.trans compared
    replace run := (bind_of_ok newBlock_apply).symm.trans run
    replace run := (bind_of_ok currentBlock_apply).symm.trans run
    replace run := (bind_of_ok (terminate_apply _)).symm.trans run
    replace run := (bind_of_ok (positionAt_apply _)).symm.trans run
    obtain ⟨_, _, rest, run⟩ := bind_ok_iff.mp run
    obtain ⟨rfl, rfl⟩ := pure_ok_iff.mp run
    obtain ⟨exits, derived, rfl⟩ := ih (fun c hc => derive c (List.mem_cons_of_mem _ hc)) rest
    exact ⟨s₁.block :: exits, .cons ((derive c List.mem_cons_self).value value) derived, rfl⟩

theorem value_of_lowerLogic (decides : Bool)
    (form : Form.classify head = some (if decides then .or else .and))
    (run : lowerLogic decides cs s = .ok a s') :
    Value (.list (.ident head hs :: sources cs) span) s a s' := by
  unfold lowerLogic at run
  cases cs with
  | nil =>
    cases run
    exact .logicEmpty form
  | cons c cs =>
    replace run := (bind_of_ok newBlock_apply).symm.trans run
    obtain ⟨_, _, tests, run⟩ := bind_ok_iff.mp run
    obtain ⟨exits, derived, rfl⟩ := tests_of_lowerTests derive tests
    replace run := (bind_of_ok currentBlock_apply).symm.trans run
    replace run := (bind_of_ok (terminate_apply _)).symm.trans run
    replace run := (bind_of_ok (positionAt_apply _)).symm.trans run
    cases (emit_apply _).symm.trans run
    rw [fresh_positionAt, fresh_terminate]
    exact .logic form derived

theorem value_of_lowerLoop (form : Form.classify head = some .loop)
    (run : lowerLoop cs span s = .ok a s') :
    Value (.list (.ident head hs :: sources cs) span) s a s' := by
  unfold lowerLoop at run
  split at run
  next test c cs =>
    replace run := (bind_of_ok newBlock_apply).symm.trans run
    replace run := (bind_of_ok newBlock_apply).symm.trans run
    replace run := (bind_of_ok newBlock_apply).symm.trans run
    replace run := (bind_of_ok (terminate_apply _)).symm.trans run
    replace run := (bind_of_ok (positionAt_apply _)).symm.trans run
    simp only [nextBlock_newBlock] at run
    -- the condition and the body can fail, everything around them runs
    obtain ⟨_, s₁, tested, run⟩ := bind_ok_iff.mp run
    replace run := (bind_of_ok (terminate_apply _)).symm.trans run
    replace run := (bind_of_ok (positionAt_apply _)).symm.trans run
    obtain ⟨_, s₂, body, run⟩ := bind_ok_iff.mp run
    obtain ⟨results, derived, rfl⟩ :=
      values_of_lowerBody (fun c hc => derive c (List.mem_cons_of_mem _ hc)) body
    replace run := (bind_of_ok (terminate_apply _)).symm.trans run
    replace run := (bind_of_ok (positionAt_apply _)).symm.trans run
    obtain ⟨rfl, rfl⟩ := pure_ok_iff.mp run
    exact .loop form ((derive test (by simp)).test tested) derived
  next => exact absurd run fail_ne_ok

theorem operands_of_lowerOperands {op : ArithOp} {acc : Operand}
    (run : lowerOperands op acc cs s = .ok a s') : Operands op acc (sources cs) s a s' := by
  induction cs generalizing s acc with
  | nil => cases run; exact .nil
  | cons c cs ih =>
    obtain ⟨right, s₁, value, run⟩ := bind_ok_iff.mp run
    have value := (derive c List.mem_cons_self).value value
    by_cases zero : op = .div ∧ right = .const 0
    · simp only [zero, and_self, if_true] at run
      obtain ⟨_, _, failed, -⟩ := bind_ok_iff.mp run
      exact absurd failed fail_ne_ok
    · simp only [zero, if_false] at run
      replace run := (bind_of_ok (emit_apply _)).symm.trans run
      exact .cons value zero (ih (fun c hc => derive c (List.mem_cons_of_mem _ hc)) run)

theorem value_of_lowerArith {op : ArithOp} (form : Form.classify head = some (.arith op))
    (run : lowerArith op cs span s = .ok a s') :
    Value (.list (.ident head hs :: sources cs) span) s a s' := by
  unfold lowerArith at run
  split at run
  next => exact absurd run fail_ne_ok
  next c =>
    cases op with
    | sub =>
      obtain ⟨_, _, value, run⟩ := bind_ok_iff.mp run
      cases (emit_apply _).symm.trans run
      exact .neg form ((derive c (by simp)).value value)
    | _ => exact absurd run fail_ne_ok
  next c cs single =>
    obtain ⟨_, _, first, run⟩ := bind_ok_iff.mp run
    have rest := operands_of_lowerOperands (fun c hc => derive c (List.mem_cons_of_mem _ hc)) run
    cases cs with
    | nil => exact absurd rfl single
    | cons c' cs => exact .arith form ((derive c List.mem_cons_self).value first) rest

theorem value_of_lowerDefun (form : Form.classify head = some .defun)
    (run : lowerDefun cs span s = .ok a s') :
    Value (.list (.ident head hs :: sources cs) span) s a s' := by
  unfold lowerDefun at run
  split at run
  next place params c cs =>
    -- name, parameters, unit, body: each may fail, and a run of the form is one of all four
    obtain ⟨name, _, named, run⟩ := bind_ok_iff.mp run
    obtain ⟨rfl, ns, hplace⟩ := ident_of_target named
    obtain ⟨names, _, given, run⟩ := bind_ok_iff.mp run
    obtain ⟨rfl, listed⟩ := names_of_parameters given
    obtain ⟨unit, s₁, defined, run⟩ := bind_ok_iff.mp run
    obtain ⟨_, _, inner, run⟩ := bind_ok_iff.mp run
    obtain ⟨rfl, rfl⟩ := pure_ok_iff.mp run
    -- the body is lowered in the unit, and the code around it taken up again
    unfold inUnit at inner
    replace inner := (bind_of_ok get_apply).symm.trans inner
    replace inner := (bind_of_ok (set_apply _)).symm.trans inner
    obtain ⟨_, s₂, body, inner⟩ := bind_ok_iff.mp inner
    replace body := (bind_of_ok (lowerParams_apply _)).symm.trans body
    obtain ⟨results, derived, rfl⟩ :=
      values_of_lowerBody (fun c hc => derive c (by simp_all)) body
    replace inner := (bind_of_ok (terminate_apply _)).symm.trans inner
    replace inner := (bind_of_ok get_apply).symm.trans inner
    cases (set_apply _).symm.trans inner
    simp only [sources, List.map_cons, hplace]
    change Value _ _ _ (s₂.leaveUnit unit (lastOf results) s₁)
    exact .defun form listed (define?_of_defineUnit defined) derived
  next => exact absurd run fail_ne_ok

theorem value_of_lowerCall (noForm : Form.classify head = none)
    (run : lowerCall head cs span s = .ok a s') :
    Value (.list (.ident head hs :: sources cs) span) s a s' := by
  unfold lowerCall at run
  replace run := (bind_of_ok get_apply).symm.trans run
  cases unknown : s.current.lookup head with
  | some slot =>
    simp only [unknown, Option.isSome_some, if_true] at run
    obtain ⟨_, _, failed, -⟩ := bind_ok_iff.mp run
    exact absurd failed fail_ne_ok
  | none =>
    simp only [unknown, Option.isSome_none] at run
    obtain ⟨operands, s₁, arguments, run⟩ := bind_ok_iff.mp run
    obtain ⟨unit, s₂, found, run⟩ := bind_ok_iff.mp run
    cases (emit_apply _).symm.trans run
    exact .call noForm unknown (values_of_mapM derive arguments) (callee?_of_callee found)

/-- Each form is derived by the rule of its own. -/
theorem value_of_lowerForm {form : Form} (classified : Form.classify head = some form)
    (run : lowerForm form cs span s = .ok a s') :
    Value (.list (.ident head hs :: sources cs) span) s a s' := by
  cases form with
  | print => exact value_of_lowerPrint derive classified run
  | set => exact value_of_lowerSet derive classified run
  | const => exact value_of_lowerConst derive classified run
  | cond => exact value_of_lowerIf derive classified run
  | not => exact value_of_lowerNot derive classified run
  | and => exact value_of_lowerLogic derive false classified run
  | or => exact value_of_lowerLogic derive true classified run
  | loop => exact value_of_lowerLoop derive classified run
  | defun => exact value_of_lowerDefun derive classified run
  | lambda =>
    obtain ⟨rfl, rfl⟩ := pure_ok_iff.mp run
    exact .lambda classified
  | quote => exact absurd run fail_ne_ok
  | arith op => exact value_of_lowerArith derive classified run
  | compare op => exact absurd run fail_ne_ok

theorem value_of_lowerList (run : lowerList cs span s = .ok a s') :
    Value (.list (sources cs) span) s a s' := by
  unfold lowerList at run
  cases cs with
  | nil => exact absurd run fail_ne_ok
  | cons c cs =>
    have derive' : ∀ c ∈ cs, c.Derives := fun c hc => derive c (List.mem_cons_of_mem _ hc)
    -- the head has to be a name
    cases named : c.source.ident? with
    | none =>
      simp only [named] at run
      exact absurd run fail_ne_ok
    | some name =>
      obtain ⟨hs, hsource⟩ := Expr.ident_of_ident? named
      simp only [named] at run
      simp only [sources, List.map_cons, hsource]
      -- a name that is no form is called
      cases classified : Form.classify name with
      | none =>
        simp only [classified] at run
        exact value_of_lowerCall derive' classified run
      | some form =>
        simp only [classified] at run
        exact value_of_lowerForm derive' classified run

theorem test_of_testList {v : ValueId} (run : testList cs span s = .ok v s') :
    Test (.list (sources cs) span) s v s' := by
  unfold testList at run
  cases comparison : (Expr.list (cs.map (·.source)) span).comparison? with
  | none =>
    simp only [comparison] at run
    exact test_of_testNonzero comparison (value_of_lowerList derive) run
  | some compared =>
    -- a comparison is not made a number first
    obtain ⟨op, operands⟩ := compared
    simp only [comparison] at run
    obtain ⟨name, hs, c, cs, rfl, hsource, classified⟩ := head_of_comparison? comparison
    simp only [sources, List.map_cons, hsource]
    change testComparison op cs span s = _ at run
    unfold testComparison at run
    split at run
    next left right =>
      obtain ⟨_, _, first, run⟩ := bind_ok_iff.mp run
      obtain ⟨_, _, second, run⟩ := bind_ok_iff.mp run
      cases (compare_apply _ _ _).symm.trans run
      exact .compare classified ((derive left (by simp)).value first)
        ((derive right (by simp)).value second)
    next => exact absurd run fail_ne_ok

end Forms

theorem derives_ofExprs {es : List Expr} (derive : ∀ e ∈ es, (ofExpr e).Derives) :
    ∀ c ∈ ofExprs es, c.Derives := by
  rw [ofExprs_eq_map]
  intro c hc
  obtain ⟨e, he, rfl⟩ := List.mem_map.mp hc
  exact derive e he

theorem values_of_inits {bindings : List (LetBinding Expr)} {pairs : List (String × Operand)}
    (derive : ∀ b ∈ bindings, (ofExpr b.init).Derives)
    (run : ((ofBindings bindings).mapM fun (name, c) => return (name, ← c.value) :
      LowerM (List (String × Operand))) s = .ok pairs s') :
    ∃ inits, Values (bindings.map (·.init)) s inits s' ∧
      pairs = (bindings.map (·.name)).zip inits := by
  rw [ofBindings_eq_map] at run
  induction bindings generalizing s pairs with
  | nil =>
    cases run
    exact ⟨[], .nil, rfl⟩
  | cons b bindings ih =>
    rw [List.map_cons, List.mapM_cons] at run
    obtain ⟨_, _, pair, run⟩ := bind_ok_iff.mp run
    obtain ⟨init, _, first, pair⟩ := bind_ok_iff.mp pair
    obtain ⟨rfl, rfl⟩ := pure_ok_iff.mp pair
    obtain ⟨_, _, others, run⟩ := bind_ok_iff.mp run
    obtain ⟨rfl, rfl⟩ := pure_ok_iff.mp run
    obtain ⟨inits, rest, rfl⟩ := ih (fun b hb => derive b (List.mem_cons_of_mem _ hb)) others
    have first := (derive b List.mem_cons_self).value first
    rw [source_ofExpr] at first
    exact ⟨init :: inits, .cons first rest, rfl⟩

theorem value_of_lowerLet {bindings : List (LetBinding Expr)} {body : List Expr} {span : Span}
    (derive : ∀ b ∈ bindings, (ofExpr b.init).Derives)
    (derive' : ∀ e ∈ body, (ofExpr e).Derives)
    (run : lowerLet (ofBindings bindings) (ofExprs body) s = .ok a s') :
    Value (.letIn bindings body span) s a s' := by
  obtain ⟨pairs, s₁, initial, run⟩ := bind_ok_iff.mp run
  obtain ⟨inits, before, rfl⟩ := values_of_inits derive initial
  replace run := (bind_of_ok (modifyUnit_apply _)).symm.trans run
  replace run := (bind_of_ok (bindAll_apply _)).symm.trans run
  obtain ⟨result, s₂, inner, run⟩ := bind_ok_iff.mp run
  replace run := (bind_of_ok (modifyUnit_apply _)).symm.trans run
  obtain ⟨rfl, rfl⟩ := pure_ok_iff.mp run
  obtain ⟨results, derived, rfl⟩ := values_of_lowerBody (derives_ofExprs derive') inner
  rw [sources_ofExprs] at derived
  exact .letIn before derived

/-- The runs of the code of an expression are derivations. -/
theorem derives_ofExpr (e : Expr) : (ofExpr e).Derives := by
  induction e using Expr.induction with
  | int n span =>
    refine derives_ofValue rfl fun run => ?_
    obtain ⟨rfl, rfl⟩ := pure_ok_iff.mp run
    exact .int
  -- there is no code for texts and quotations, so no run of it
  | str text span => exact derives_ofValue rfl fun run => absurd run fail_ne_ok
  | quote datum style span _ => exact derives_ofValue rfl fun run => absurd run fail_ne_ok
  | ident name span =>
    refine derives_ofValue rfl fun {s a s'} run => ?_
    unfold lowerVariable at run
    replace run := (bind_of_ok get_apply).symm.trans run
    cases known : s.current.lookup name with
    | none =>
      simp only [known] at run
      exact absurd run fail_ne_ok
    | some slot =>
      simp only [known] at run
      cases (emit_apply _).symm.trans run
      exact .variable known
  | list items span ih =>
    have derive := derives_ofExprs ih
    have same := sources_ofExprs items
    -- for its value, and as a condition
    refine ⟨fun run => ?_, fun run => ?_⟩
    · exact same ▸ value_of_lowerList derive run
    · exact same ▸ test_of_testList derive run
  | letIn bindings body span inits ih =>
    exact derives_ofValue rfl fun run => value_of_lowerLet inits ih run

namespace State

/-- Ends `main`, which yields zero. -/
def finishMain (s : State) : State :=
  let s := s.terminate (.ret (.const 0))
  { s with module := s.module.setBody s.current.unit s.current.builder.finish }

end State

theorem values_of_lowerMain {program : List Expr} (run : lowerMain program s = .ok ⟨⟩ s') :
    ∃ results s₁, Values program s results s₁ ∧ s' = s₁.finishMain := by
  obtain ⟨_, s₁, body, run⟩ := bind_ok_iff.mp run
  obtain ⟨results, derived, rfl⟩ :=
    values_of_lowerBody (derives_ofExprs fun e _ => derives_ofExpr e) body
  rw [sources_ofExprs] at derived
  replace run := (bind_of_ok (terminate_apply _)).symm.trans run
  cases run
  exact ⟨results, s₁, derived, rfl⟩

end TwinLisp.Graph.Lowering
