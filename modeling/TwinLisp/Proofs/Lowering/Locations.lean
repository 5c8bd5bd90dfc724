import TwinLisp.Proofs.Lowering.Sound
import TwinLisp.Report.Location

/-!
Where errors of lowering point. The builder refuses nothing; what a form refuses is at the form itself or
at one of its operands, and so at a node of the program.
-/

namespace TwinLisp.Graph.Lowering

/-- What the step refuses is at a place of this kind. -/
def Blames {α : Type} (P : Span → Prop) (act : LowerM α) : Prop :=
  ∀ s error s', act s = .error error s' → P error.span

/-- All that is refused while the code of an expression is added, and the expression itself. -/
structure Code.Located (P : Span → Prop) (c : Code) : Prop where
  source : P c.source.span
  value : Blames P c.value
  test : Blames P c.test

variable {P : Span → Prop} {α β : Type} {c : Code} {cs : List Code} {span : Span}

/-! Steps and sequences of steps. -/

/-- What never fails blames nothing. -/
theorem blames_of_ok {act : LowerM α} (run : ∀ s, ∃ a s', act s = .ok a s') : Blames P act := by
  intro s error s' failed
  obtain ⟨a, u, ended⟩ := run s
  cases ended.symm.trans failed

theorem blames_pure (a : α) : Blames P (pure a) :=
  blames_of_ok fun s => ⟨a, s, rfl⟩

theorem blames_fail {fault : Fault} (here : P span) : Blames P (fail fault span : LowerM α) := by
  intro s error s' failed
  cases failed
  exact here

/-- A sequence blames what either of its parts blames. -/
theorem blames_bind {act : LowerM α} {next : α → LowerM β} (first : Blames P act)
    (rest : ∀ a, Blames P (next a)) : Blames P (act >>= next) := by
  intro s error s' failed
  rcases bind_error_iff.mp failed with failed | ⟨a, u, -, failed⟩
  · exact first s error s' failed
  · exact rest a u error s' failed

theorem blames_forM {f : β → LowerM PUnit} {xs : List β} (each : ∀ x ∈ xs, Blames P (f x)) :
    Blames P (xs.forM f) := by
  induction xs with
  | nil => exact blames_pure PUnit.unit
  | cons x xs ih =>
    refine blames_bind (each x List.mem_cons_self) fun _ => ?_
    exact ih fun y mem => each y (List.mem_cons_of_mem x mem)

theorem blames_mapM {f : β → LowerM α} {xs : List β} (each : ∀ x ∈ xs, Blames P (f x)) :
    Blames P (xs.mapM f) := by
  induction xs with
  | nil => exact blames_pure []
  | cons x xs ih =>
    rw [List.mapM_cons]
    refine blames_bind (each x List.mem_cons_self) fun a => ?_
    refine blames_bind (ih fun y mem => each y (List.mem_cons_of_mem x mem)) fun as => ?_
    exact blames_pure (a :: as)

theorem blames_foldlM {f : α → β → LowerM α} {xs : List β} (acc : α)
    (each : ∀ x ∈ xs, ∀ a, Blames P (f a x)) : Blames P (xs.foldlM f acc) := by
  induction xs generalizing acc with
  | nil => exact blames_pure acc
  | cons x xs ih =>
    rw [List.foldlM_cons]
    refine blames_bind (each x List.mem_cons_self acc) fun a => ?_
    exact ih a fun y mem => each y (List.mem_cons_of_mem x mem)

theorem blames_get {next : State → LowerM α} (rest : ∀ s, Blames P (next s)) :
    Blames P (get >>= next) :=
  blames_bind (blames_of_ok fun s => ⟨s, s, rfl⟩) rest

theorem blames_set (s : State) : Blames P (set s) :=
  blames_of_ok fun _ => ⟨⟨⟩, s, rfl⟩

theorem blames_build (f : Builder → α × Builder) : Blames P (build f) :=
  blames_of_ok fun _ => ⟨_, _, rfl⟩

theorem blames_modifyUnit (f : UnitState → UnitState) : Blames P (modifyUnit f) :=
  blames_of_ok fun _ => ⟨_, _, rfl⟩

theorem blames_modifyBuilder (f : Builder → Builder) : Blames P (modifyBuilder f) :=
  blames_modifyUnit _

theorem blames_emit (operation : Operation) : Blames P (emit operation) :=
  blames_bind (blames_build _) fun _ => blames_pure _

theorem blames_perform (effect : Effect) : Blames P (perform effect) :=
  blames_modifyBuilder _

theorem blames_newBlock : Blames P newBlock :=
  blames_build _

theorem blames_currentBlock : Blames P currentBlock :=
  blames_get fun _ => blames_pure _

theorem blames_positionAt (block : BlockId) : Blames P (positionAt block) :=
  blames_modifyBuilder _

theorem blames_terminate (t : Terminator) : Blames P (terminate t) :=
  blames_modifyBuilder _

theorem blames_newVariable (bind : UnitState → String → SlotId → UnitState) (name : String)
    (frozen : Bool) (value : Operand) : Blames P (newVariable bind name frozen value) :=
  blames_bind (blames_build _) fun _ => blames_bind (blames_modifyUnit _) fun _ => blames_perform _

theorem blames_compare (op : CmpOp) (left right : Operand) : Blames P (compare op left right) :=
  blames_build _

/-- The comparison behind a test is not in the source, and cannot fail. -/
theorem blames_testNonzero {value : LowerM Operand} (located : Blames P value) :
    Blames P (testNonzero value) :=
  blames_bind located fun _ => blames_compare _ _ _

/-! Special forms and calls, whose operands are located. -/

section Forms

variable (here : P span) (located : ∀ c ∈ cs, c.Located P)

include located

theorem blames_lowerBody : Blames P (lowerBody cs) :=
  blames_foldlM _ fun c mem _ => (located c mem).value

omit located in
theorem blames_target (form : Form) {e : Expr} (here : P e.span) : Blames P (target form e) := by
  unfold target
  cases e.ident? with
  | some name => exact blames_pure name
  | none => exact blames_fail here

omit located in
/-- A wrong parameter list is blamed as a whole. -/
theorem blames_parameters (form : Form) {e : Expr} (here : P e.span) : Blames P (parameters form e) := by
  unfold parameters
  cases e.names? with
  | some names => exact blames_pure names
  | none => exact blames_fail here

omit located in
theorem blames_lowerPrintArg (located : c.Located P) : Blames P (lowerPrintArg c) := by
  unfold lowerPrintArg
  split
  · exact blames_bind (blames_of_ok fun _ => ⟨_, _, rfl⟩) fun _ => blames_perform _
  · exact blames_bind located.value fun _ => blames_perform _

include here

theorem blames_lowerPrint : Blames P (lowerPrint cs span) := by
  have lines : Blames P (do cs.forM lowerPrintArg; return Operand.const 0) :=
    blames_bind (blames_forM fun c mem => blames_lowerPrintArg (located c mem)) fun _ => blames_pure _
  unfold lowerPrint
  split
  · exact blames_bind (blames_fail here) fun _ => lines
  · exact lines

theorem blames_lowerSet : Blames P (lowerSet cs span) := by
  unfold lowerSet
  split
  next place init =>
    refine blames_bind (blames_target .set (located place (by simp)).source) fun name => ?_
    refine blames_bind (located init (by simp)).value fun value => ?_
    refine blames_get fun s => ?_
    simp only
    split
    -- a name that is known, to which nothing can be assigned if it is frozen
    next slot found =>
      split
      · exact blames_bind (blames_fail here) fun _ =>
          blames_bind (blames_perform _) fun _ => blames_pure value
      · exact blames_bind (blames_perform _) fun _ => blames_pure value
    next => exact blames_bind (blames_newVariable _ _ _ _) fun _ => blames_pure value
  next => exact blames_fail here

theorem blames_lowerConst : Blames P (lowerConst cs span) := by
  unfold lowerConst
  split
  next place init =>
    refine blames_bind (blames_target .const (located place (by simp)).source) fun name => ?_
    refine blames_bind (located init (by simp)).value fun value => ?_
    refine blames_get fun s => ?_
    have bound : Blames P (do
        newVariable UnitState.bindInner name true value
        return value) :=
      blames_bind (blames_newVariable _ _ _ _) fun _ => blames_pure value
    simp only
    split
    · exact blames_bind (blames_fail here) fun _ => bound
    · exact bound
  next => exact blames_fail here

omit here located in
theorem blames_lowerArm (located : c.Located P) (start merge : BlockId) :
    Blames P (lowerArm c start merge) :=
  blames_bind (blames_positionAt start) fun _ => blames_bind located.value fun _ =>
    blames_bind blames_currentBlock fun _ => blames_bind (blames_terminate _) fun _ => blames_pure _

theorem blames_lowerIf : Blames P (lowerIf cs span) := by
  unfold lowerIf
  split
  next cond yes no =>
    -- the parts are lowered in the order in which they are read
    refine blames_bind (located cond (by simp)).test fun _ => ?_
    refine blames_bind blames_newBlock fun _ => blames_bind blames_newBlock fun _ =>
      blames_bind blames_newBlock fun _ => blames_bind (blames_terminate _) fun _ => ?_
    refine blames_bind (blames_lowerArm (located yes (by simp)) _ _) fun _ => ?_
    refine blames_bind (blames_lowerArm (located no (by simp)) _ _) fun _ => ?_
    exact blames_bind (blames_positionAt _) fun _ => blames_emit _
  next => exact blames_fail here

theorem blames_lowerNot : Blames P (lowerNot cs span) := by
  unfold lowerNot
  split
  next operand =>
    refine blames_bind (located operand (by simp)).value fun _ => ?_
    exact blames_bind (blames_compare _ _ _) fun _ => blames_emit _
  next => exact blames_fail here

omit here in
theorem blames_lowerTests (decides : Bool) (merge : BlockId) :
    Blames P (lowerTests decides merge cs) := by
  induction cs with
  | nil => exact blames_pure []
  | cons c cs ih =>
    obtain ⟨first, rest⟩ := List.forall_mem_cons.mp located
    unfold lowerTests
    -- between the operands there are only instructions
    refine blames_bind (blames_testNonzero first.value) fun _ => blames_bind blames_newBlock fun _ =>
      blames_bind blames_currentBlock fun _ => blames_bind (blames_terminate _) fun _ =>
      blames_bind (blames_positionAt _) fun _ => ?_
    exact blames_bind (ih rest) fun _ => blames_pure _

omit here in
theorem blames_lowerLogic (decides : Bool) : Blames P (lowerLogic decides cs) := by
  unfold lowerLogic
  simp only
  split
  · exact blames_pure _
  · refine blames_bind blames_newBlock fun _ => ?_
    refine blames_bind (blames_lowerTests located decides _) fun _ => ?_
    exact blames_bind blames_currentBlock fun _ => blames_bind (blames_terminate _) fun _ =>
      blames_bind (blames_positionAt _) fun _ => blames_emit _

theorem blames_lowerLoop : Blames P (lowerLoop cs span) := by
  unfold lowerLoop
  split
  next cond c cs =>
    obtain ⟨test, body⟩ := List.forall_mem_cons.mp located
    refine blames_bind blames_newBlock fun _ => blames_bind blames_newBlock fun _ =>
      blames_bind blames_newBlock fun _ => blames_bind (blames_terminate _) fun _ =>
      blames_bind (blames_positionAt _) fun _ => ?_
    refine blames_bind test.test fun _ => blames_bind (blames_terminate _) fun _ =>
      blames_bind (blames_positionAt _) fun _ => ?_
    exact blames_bind (blames_lowerBody body) fun _ => blames_bind (blames_terminate _) fun _ =>
      blames_bind (blames_positionAt _) fun _ => blames_pure _
  next => exact blames_fail here

omit here in
theorem blames_lowerOperands (op : ArithOp) (acc : Operand) : Blames P (lowerOperands op acc cs) := by
  induction cs generalizing acc with
  | nil => exact blames_pure acc
  | cons c cs ih =>
    obtain ⟨first, rest⟩ := List.forall_mem_cons.mp located
    unfold lowerOperands
    refine blames_bind first.value fun right => ?_
    -- a division by a literal zero is blamed on the operand
    have folded : Blames P (do lowerOperands op (← emit (.arith op acc right)) cs) :=
      blames_bind (blames_emit _) fun acc => ih rest acc
    simp only
    split
    · exact blames_bind (blames_fail first.source) fun _ => folded
    · exact folded

theorem blames_lowerArith (op : ArithOp) : Blames P (lowerArith op cs span) := by
  unfold lowerArith
  split
  next => exact blames_fail here
  next c =>
    split
    · exact blames_bind (located c (by simp)).value fun _ => blames_emit _
    · exact blames_fail here
  next c cs _ =>
    obtain ⟨first, rest⟩ := List.forall_mem_cons.mp located
    exact blames_bind first.value fun acc => blames_lowerOperands rest op acc

omit located in
theorem blames_defineUnit (name : String) (arity : Nat) : Blames P (defineUnit name arity span) := by
  unfold defineUnit
  refine blames_get fun s => ?_
  split
  next signature found =>
    simp only
    split
    · exact blames_bind (blames_fail here) fun _ => blames_bind (blames_set _) fun _ => blames_pure _
    · exact blames_bind (blames_set _) fun _ => blames_pure _
  next => exact blames_bind (blames_set _) fun _ => blames_pure _

omit here located in
theorem blames_inUnit (unit : UnitId) (arity : Nat) {act : LowerM Operand} (inner : Blames P act) :
    Blames P (inUnit unit arity act) :=
  blames_get fun _ => blames_bind (blames_set _) fun _ => blames_bind inner fun _ =>
    blames_bind (blames_terminate _) fun _ => blames_get fun _ => blames_set _

omit here located in
theorem blames_lowerParams (params : List String) : Blames P (lowerParams params) :=
  blames_get fun _ => blames_forM fun _ _ => blames_newVariable _ _ _ _

theorem blames_lowerDefun : Blames P (lowerDefun cs span) := by
  unfold lowerDefun
  split
  next place params c cs =>
    refine blames_bind (blames_target .defun (located place (by simp)).source) fun name => ?_
    refine blames_bind (blames_parameters .defun (located params (by simp)).source) fun names => ?_
    refine blames_bind (blames_defineUnit here name names.length) fun unit => ?_
    -- the body may be blamed at any of its forms, the rest of the
    -- definition at the name, the list or the form
    have body : ∀ c' ∈ c :: cs, c'.Located P := fun c' mem =>
      located c' (List.mem_cons_of_mem _ (List.mem_cons_of_mem _ mem))
    refine blames_bind (blames_inUnit unit names.length ?_) fun _ => blames_pure _
    exact blames_bind (blames_lowerParams names) fun _ => blames_lowerBody body
  next => exact blames_fail here

omit located in
/-- A wrong number of arguments is blamed on the call, whatever the callee is. -/
theorem blames_callee (name : String) (arity : Nat) : Blames P (callee name arity span) := by
  unfold callee
  refine blames_get fun s => ?_
  split
  · split
    · exact blames_pure _
    · exact blames_fail here
  · exact blames_bind (blames_set _) fun _ => blames_pure _

theorem blames_lowerCall (name : String) : Blames P (lowerCall name cs span) := by
  -- arguments first, so that an error in one of them comes before one about the callee
  have called : Blames P (do
      let operands ← cs.mapM (·.value)
      let unit ← callee name operands.length span
      emit (.call unit operands)) :=
    blames_bind (blames_mapM fun c mem => (located c mem).value) fun _ =>
      blames_bind (blames_callee here name _) fun _ => blames_emit _
  unfold lowerCall
  refine blames_get fun s => ?_
  split
  · exact blames_bind (blames_fail here) fun _ => called
  · exact called

/-- Every form blames itself or one of its parts. -/
theorem blames_lowerForm (form : Form) : Blames P (lowerForm form cs span) := by
  cases form with
  | print => exact blames_lowerPrint here located
  | set => exact blames_lowerSet here located
  | const => exact blames_lowerConst here located
  | cond => exact blames_lowerIf here located
  | not => exact blames_lowerNot here located
  | and => exact blames_lowerLogic located false
  | or => exact blames_lowerLogic located true
  | loop => exact blames_lowerLoop here located
  | defun => exact blames_lowerDefun here located
  | lambda => exact blames_pure _
  | quote => exact blames_fail here
  | arith op => exact blames_lowerArith here located op
  | compare op => exact blames_fail here

theorem blames_lowerList : Blames P (lowerList cs span) := by
  unfold lowerList
  split
  next => exact blames_fail here
  next head args =>
    -- the head is a name, which is not lowered
    have operands := (List.forall_mem_cons.mp located).2
    split
    next => exact blames_fail here
    next name named =>
      split
      · exact blames_lowerForm here operands _
      · exact blames_lowerCall here operands name

theorem blames_testComparison (op : CmpOp) : Blames P (testComparison op cs span) := by
  unfold testComparison
  split
  next left right =>
    refine blames_bind (located left (by simp)).value fun _ => ?_
    exact blames_bind (located right (by simp)).value fun _ => blames_compare _ _ _
  next => exact blames_fail here

theorem blames_testList : Blames P (testList cs span) := by
  unfold testList
  split
  · exact blames_testComparison here (fun c mem => located c (List.mem_of_mem_tail mem)) _
  · exact blames_testNonzero (blames_lowerList here located)

omit here in
theorem blames_lowerLet {bindings : List (String × Code)} (inits : ∀ b ∈ bindings, b.2.Located P) :
    Blames P (lowerLet bindings cs) := by
  unfold lowerLet
  refine blames_bind (blames_mapM fun b mem => ?_) fun pairs => ?_
  · exact blames_bind (inits b mem).value fun _ => blames_pure _
  · refine blames_bind (blames_modifyUnit _) fun _ => ?_
    refine blames_bind (blames_forM fun _ _ => blames_newVariable _ _ _ _) fun _ => ?_
    exact blames_bind (blames_lowerBody located) fun _ =>
      blames_bind (blames_modifyUnit _) fun _ => blames_pure _

omit located in
theorem blames_lowerVariable (name : String) : Blames P (lowerVariable name span) := by
  unfold lowerVariable
  refine blames_get fun s => ?_
  split
  · exact blames_emit _
  · exact blames_fail here

end Forms

/-! The code of a program. -/

open Reader

theorem located_ofValue {e : Expr} {value : LowerM Operand} (here : P e.span)
    (located : Blames P value) : (Code.ofValue e value).Located P :=
  ⟨here, located, blames_testNonzero located⟩

/-- By induction on the expression; its parts are nodes as well. -/
theorem located_ofExpr {program : List Expr} {e : Expr} (node : Occurs program .code e) :
    (Code.ofExpr e).Located (IsNodeSpan program) := by
  have here : IsNodeSpan program e.span := ⟨.code, e, node, rfl⟩
  induction e using Expr.induction with
  | int n span => exact located_ofValue here (blames_pure _)
  | str text span => exact located_ofValue here (blames_fail here)
  | ident name span => exact located_ofValue here (blames_lowerVariable here name)
  | quote datum style span => exact located_ofValue here (blames_fail here)
  | list items span ih =>
    have parts : ∀ c ∈ Code.ofExprs items, c.Located (IsNodeSpan program) := by
      rw [Code.ofExprs_eq_map]
      refine List.forall_mem_map.mpr fun e mem => ?_
      have part : Occurs program .code e := .child node mem
      exact ih e mem part ⟨.code, e, part, rfl⟩
    -- the form itself or one of its parts is blamed, and both are nodes
    exact ⟨here, blames_lowerList here parts, blames_testList here parts⟩
  | letIn bindings body span initsIh bodyIh =>
    have inits : ∀ b ∈ Code.ofBindings bindings, b.2.Located (IsNodeSpan program) := by
      rw [Code.ofBindings_eq_map]
      refine List.forall_mem_map.mpr fun b mem => ?_
      have part : Occurs program .code b.init :=
        .child node (List.mem_append_left _ (List.mem_map_of_mem mem))
      exact initsIh b mem part ⟨.code, b.init, part, rfl⟩
    have parts : ∀ c ∈ Code.ofExprs body, c.Located (IsNodeSpan program) := by
      rw [Code.ofExprs_eq_map]
      refine List.forall_mem_map.mpr fun e mem => ?_
      have part : Occurs program .code e := .child node (List.mem_append_right _ mem)
      exact bodyIh e mem part ⟨.code, e, part, rfl⟩
    exact located_ofValue here (blames_lowerLet parts inits)

/-- What is refused of a program is a node of it. -/
theorem located_lowerUnverified {config : LowerConfig} {program : List Expr} {error : ProgramError}
    (refused : lowerUnverified config program = .error error) : IsNodeSpan program error.span := by
  have parts : ∀ c ∈ Code.ofExprs program, c.Located (IsNodeSpan program) := by
    rw [Code.ofExprs_eq_map]
    exact List.forall_mem_map.mpr fun e mem => located_ofExpr (.root mem)
  -- finishing `main` cannot fail
  have main : Blames (IsNodeSpan program) (lowerMain program) :=
    blames_bind (blames_lowerBody parts) fun _ => blames_bind (blames_terminate _) fun _ =>
      blames_of_ok fun _ => ⟨_, _, rfl⟩
  unfold lowerUnverified at refused
  simp only at refused
  split at refused
  next => cases refused
  next s run =>
    cases refused
    exact main _ error s run

end TwinLisp.Graph.Lowering
