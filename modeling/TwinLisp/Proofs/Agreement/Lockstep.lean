import TwinLisp.Eval
import TwinLisp.StraightLine
import TwinLisp.Proofs.Agreement.Mirror
import TwinLisp.Proofs.Eval.Pairing
import TwinLisp.Proofs.Lowering.Complete

/-!
Lowering and evaluation, run side by side: both go on while their scopes have the same variables, or
both stop with the same fault. There is one rule for each way of putting computations together, and
one for each form of straight-line code.
-/

namespace TwinLisp.Agreement

open TwinLisp.Graph TwinLisp.Graph.Lowering TwinLisp.Graph.Lowering.Code TwinLisp.Eval

variable {α β γ δ ε : Type} {d : Nat}

/-- Both sides have come to an end with related values, or with the same fault. -/
inductive Lockstep (R : α → β → Prop) (d : Nat) :
    EStateM.Result ProgramError State α → EStateM.Result Halt World β → Prop
  | ok {a s b w} (related : R a b) (mirrors : Mirrors d s w) : Lockstep R d (.ok a s) (.ok b w)
  | error {fault span span' s w} :
    Lockstep R d (.error ⟨fault, span⟩ s) (.error (.failed ⟨fault, span'⟩) w)

/-- From wherever the scopes have the same variables, both sides keep in step. -/
def InStep (R : α → β → Prop) (d : Nat) (x : LowerM α) (y : EvalM β) : Prop :=
  ∀ s w, Mirrors d s w → Lockstep R d (x s) (y w)

section Rules

variable {R : α → β → Prop} {S : γ → δ → Prop} {x : LowerM α} {y : EvalM β}

theorem inStep_pure {a : α} {b : β} (related : R a b) : InStep R d (pure a) (pure b) :=
  fun _ _ mirrors => .ok related mirrors

theorem inStep_fail (fault : Fault) (span : Span) :
    InStep R d (Lowering.fail fault span) (Eval.fail fault) :=
  fun _ _ _ => .error

/-- The places of errors may differ. -/
theorem inStep_withSpan (span : Span) (inner : InStep R d x y) : InStep R d x (withSpan span y) := by
  intro s w mirrors
  have run := inner s w mirrors
  generalize hx : x s = rx at run
  generalize hy : y w = ry at run
  cases run with
  | ok related mirrors =>
    rw [withSpan_of_ok hy]
    exact .ok related mirrors
  | error =>
    rw [withSpan_of_error hy]
    exact .error

theorem Lockstep.bind {s : State} {w : World} {f : α → LowerM γ} {g : β → EvalM δ}
    (first : Lockstep R d (x s) (y w)) (rest : ∀ a b, R a b → InStep S d (f a) (g b)) :
    Lockstep S d ((x >>= f) s) ((y >>= g) w) := by
  generalize hx : x s = rx at first
  generalize hy : y w = ry at first
  cases first with
  | ok related mirrors =>
    rw [bind_of_ok hx, bind_of_ok hy]
    exact rest _ _ related _ _ mirrors
  | error =>
    rw [bind_of_error hx, bind_of_error hy]
    exact .error

theorem inStep_bind {f : α → LowerM γ} {g : β → EvalM δ} (first : InStep R d x y)
    (rest : ∀ a b, R a b → InStep S d (f a) (g b)) : InStep S d (x >>= f) (y >>= g) :=
  fun s w mirrors => (first s w mirrors).bind rest

/-- Evaluation goes on with its value alone. -/
theorem inStep_map {S : α → δ → Prop} {g : β → δ} (first : InStep R d x y)
    (rest : ∀ a b, R a b → S a (g b)) : InStep S d x (y >>= fun b => pure (g b)) := by
  have bound := inStep_bind first fun a b related => inStep_pure (d := d) (rest a b related)
  rwa [bind_pure] at bound

/-- What lists are mapped to is in step as well: the results are related one by one. -/
theorem inStep_mapM {xs : List ε} {f : ε → LowerM α} {g : ε → EvalM β}
    (each : ∀ x ∈ xs, InStep R d (f x) (g x)) :
    InStep (List.Forall₂ R) d (xs.mapM f) (xs.mapM g) := by
  induction xs with
  | nil => exact inStep_pure .nil
  | cons x xs ih =>
    obtain ⟨here, others⟩ := List.forall_mem_cons.mp each
    rw [List.mapM_cons, List.mapM_cons]
    refine inStep_bind here fun a b related => ?_
    refine inStep_bind (ih others) fun as bs related' => ?_
    exact inStep_pure (.cons related related')

theorem inStep_forM {xs : List ε} {f : ε → LowerM PUnit} {g : ε → EvalM PUnit}
    (each : ∀ x ∈ xs, InStep (fun _ _ => True) d (f x) (g x)) :
    InStep (fun _ _ => True) d (xs.forM f) (xs.forM g) := by
  induction xs with
  | nil => exact inStep_pure trivial
  | cons x xs ih =>
    obtain ⟨here, others⟩ := List.forall_mem_cons.mp each
    exact inStep_bind here fun _ _ _ => ih others

/-- Only lowering adds an operation. -/
theorem inStep_emit (operation : Operation) {f : Operand → LowerM γ} {y : EvalM δ}
    (rest : ∀ a, InStep S d (f a) y) : InStep S d (emit operation >>= f) y :=
  fun s w mirrors => rest (.value s.fresh) (s.emit operation) w (mirrors.emit operation)

/-- A comparison is an instruction for lowering only; evaluation has nothing to do for it. -/
theorem inStep_compare (op : CmpOp) (a b : Operand) {f : ValueId → LowerM γ} {y : EvalM δ}
    (rest : ∀ v, InStep S d (f v) y) : InStep S d (compare op a b >>= f) y :=
  fun s w mirrors => rest s.fresh (s.emit (.compare op a b)) w (mirrors.emit (.compare op a b))

end Rules

/-- An operand stands for an integer; which one is known only when the code runs. -/
def ForInt (_ : Operand) (v : TwinLisp.Value) : Prop :=
  ∃ n, v = .int n

/-- The code of an expression and its evaluation keep in step, at any depth. -/
def Follows (eval : Expr → EvalM TwinLisp.Value) (e : Expr) : Prop :=
  ∀ d, InStep ForInt d (ofExpr e).value (eval e)

section Forms

variable {eval : Expr → EvalM TwinLisp.Value} {e : Expr} {args body : List Expr} {name : String}
  {span : Span}

/-- Only the last value counts, so that the values before the first one do not matter. -/
theorem inStep_body (nonempty : body ≠ []) (each : ∀ e ∈ body, Follows eval e) :
    InStep ForInt d (lowerBody (ofExprs body)) (evalBody eval body) := by
  unfold lowerBody evalBody
  -- the value at hand is that of the last expression, and as there is
  -- one, the one before the first does not matter
  generalize (Operand.const 0 : Operand) = a
  generalize TwinLisp.Value.nil = v
  induction body generalizing a v with
  | nil => exact absurd rfl nonempty
  | cons e es ih =>
    obtain ⟨here, others⟩ := List.forall_mem_cons.mp each
    rw [ofExprs, List.foldlM_cons, List.foldlM_cons]
    refine inStep_bind (here d) fun b u related => ?_
    cases es with
    | nil => exact inStep_pure related
    | cons e' es => exact ih (List.cons_ne_nil _ _) others b u

/-- An operand is an integer, as arithmetic asks for. -/
theorem inStep_int (follows : Follows eval e) :
    InStep (fun _ _ => True) d (ofExpr e).value (evalInt eval e) := by
  intro s w mirrors
  have run := follows d s w mirrors
  unfold evalInt
  generalize hx : (ofExpr e).value s = rx at run
  generalize hy : eval e w = ry at run
  -- the two values are related as integers, so the check for one passes on both sides
  cases run with
  | ok related mirrors =>
    obtain ⟨n, rfl⟩ := related
    rw [bind_of_ok hy]
    exact .ok trivial mirrors
  | error =>
    rw [bind_of_error hy]
    exact .error

theorem inStep_operands {op : ArithOp} (total : op ≠ .div) (each : ∀ e ∈ args, Follows eval e)
    (acc : Operand) (n : Int64) :
    InStep (fun _ _ => True) d (lowerOperands op acc (ofExprs args)) (evalOperands eval op n args) := by
  induction args generalizing acc n with
  | nil => exact inStep_pure trivial
  | cons e es ih =>
    obtain ⟨here, others⟩ := List.forall_mem_cons.mp each
    rw [ofExprs, lowerOperands, evalOperands]
    refine inStep_bind (inStep_int here) fun a m _ => ?_
    rw [if_neg (fun both => total both.1)]
    -- only a division can fail on the numbers
    obtain ⟨k, stepped⟩ : ∃ k, op.step? n m = some k := by
      cases op with
      | div => exact absurd rfl total
      | _ => exact ⟨_, rfl⟩
    rw [stepped]
    exact inStep_emit _ fun a => ih others a k

/-- The operation that an arithmetic form ends with yields an integer. -/
theorem inStep_result (operation : Operation) (n : Int64) :
    InStep ForInt d (emit operation) (pure (.int n)) :=
  inStep_emit operation fun _ => inStep_pure ⟨n, rfl⟩

theorem inStep_arith {op : ArithOp} (total : op ≠ .div) (each : ∀ e ∈ args, Follows eval e) :
    InStep ForInt d (lowerArith op (ofExprs args) span) (evalArith eval op args) := by
  match args, each with
  | [], _ => exact inStep_fail _ _
  | [e], each =>
    unfold lowerArith evalArith
    simp only [ofExprs]
    -- a single operand is negated, which no other operator does
    by_cases alone : op.minOperands = 1
    · rw [if_pos alone, if_pos alone]
      refine inStep_bind (inStep_int (each e List.mem_cons_self)) fun a n _ => ?_
      exact inStep_result _ _
    · rw [if_neg alone, if_neg alone]
      exact inStep_fail _ _
  | e :: e' :: es, each =>
    obtain ⟨here, others⟩ := List.forall_mem_cons.mp each
    refine inStep_bind (inStep_int here) fun a n _ => ?_
    exact inStep_map (inStep_operands total others a n) fun _ k _ => ⟨k, rfl⟩

theorem inStep_not (each : ∀ e ∈ args, Follows eval e) :
    InStep ForInt d (lowerNot (ofExprs args) span) (evalNot eval args) := by
  match args, each with
  | [], _ => exact inStep_fail _ _
  | [e], each =>
    refine inStep_bind (each e List.mem_cons_self d) fun a v _ => ?_
    exact inStep_compare .eq a (.const 0) fun _ => inStep_result _ _
  | _ :: _ :: _, _ => exact inStep_fail _ _

/-- A string is printed as it is, and the value of any other argument as an integer. -/
theorem inStep_printArg (follows : (∀ text at', e ≠ .str text at') → Follows eval e)
    (literal : ∀ text at', eval (.str text at') = pure (.str text)) :
    InStep (fun _ _ => True) d (lowerPrintArg (ofExpr e)) (do printLine (← eval e).text) := by
  by_cases plain : ∀ text at', e ≠ .str text at'
  · rw [lowerPrintArg_of_ne_str plain]
    refine inStep_bind (follows plain d) fun a v _ => ?_
    exact fun s w mirrors => .ok trivial ((mirrors.perform (.printInt a)).print v.text)
  · obtain ⟨text, at', rfl⟩ : ∃ text at', e = .str text at' := by simpa using plain
    rw [literal]
    exact fun s w mirrors => .ok trivial (((mirrors.intern text).perform _).print text)

/-- The texts among the arguments are printed without being evaluated. -/
theorem inStep_print (each : ∀ e ∈ args, (∀ text at', e ≠ .str text at') → Follows eval e)
    (literal : ∀ text at', eval (.str text at') = pure (.str text)) :
    InStep ForInt d (lowerPrint (ofExprs args) span) (evalPrint eval args) := by
  unfold lowerPrint evalPrint
  cases args with
  | nil => exact inStep_fail _ _
  | cons e es =>
    have printed := inStep_forM (d := d) fun e he => inStep_printArg (each e he) literal
    have run : (ofExprs (e :: es)).forM lowerPrintArg
        = (e :: es).forM fun e => lowerPrintArg (ofExpr e) := by
      rw [ofExprs_eq_map]
      exact List.forM_map
    rw [← run] at printed
    exact inStep_bind printed fun _ _ _ => inStep_pure ⟨0, rfl⟩

/-- Both sides look for the place of a binding before anything else. -/
theorem inStep_target (form : Form) (e : Expr) :
    InStep (fun name name' => name = name' ∧ ∃ at', e = .ident name at') d
      (Lowering.target form e) (Eval.target form e) := by
  unfold Lowering.target Eval.target
  cases e with
  | ident name at' => exact inStep_pure ⟨rfl, at', rfl⟩
  | _ => exact inStep_fail _ _

/-- `set`: no variable is refused by one side alone, as both see the same constants. -/
theorem inStep_set (named : ∀ name at', .ident name at' ∈ args → name ≠ "nil")
    (each : ∀ e ∈ args, Follows eval e) :
    InStep ForInt d (lowerSet (ofExprs args) span) (evalSet eval args) := by
  match args, named, each with
  | [], _, _ => exact inStep_fail _ _
  | [_], _, _ => exact inStep_fail _ _
  | _ :: _ :: _ :: _, _, _ => exact inStep_fail _ _
  | [place, init], named, each =>
    unfold lowerSet evalSet
    simp only [ofExprs, source_ofExpr]
    refine inStep_bind (inStep_target .set place) fun name _ same => ?_
    obtain ⟨rfl, at', rfl⟩ := same
    -- only `nil` is bound in the environment and not in the scopes of the code
    have named := named name at' List.mem_cons_self
    refine inStep_bind (each init (by simp) d) fun a v related => ?_
    obtain ⟨n, rfl⟩ := related
    intro s w mirrors
    rw [bind_of_ok get_apply]
    -- known to both or to neither: the scopes mirror the environment name by name
    rcases mirrors.lookup_cases named with ⟨unknown, -⟩ | ⟨slot, b, known, bound, twin⟩
    · obtain ⟨env, assigned, mirrors⟩ := mirrors.introduce named unknown a n
      rw [bind_of_ok (updateEnv_of_ok assigned)]
      simp only [unknown]
      exact .ok ⟨n, rfl⟩ mirrors
    · simp only [known]
      cases frozen : s.current.isFrozen slot with
      | false =>
        obtain ⟨env, assigned, mirrors⟩ := mirrors.assign named known frozen n
        rw [bind_of_ok (updateEnv_of_ok assigned)]
        exact .ok ⟨n, rfl⟩ (mirrors.perform _)
      | true =>
        -- both refuse, and neither has changed anything by then
        have refused := mirrors.isFrozen named
        rw [known, Option.any_some, frozen] at refused
        rw [bind_of_error (updateEnv_of_error (Environment.assign_of_frozen refused.symm))]
        exact .error

/-- `const`: whether the name is taken is decided by the scope alone, which both sides know. -/
theorem inStep_const (named : ∀ name at', .ident name at' ∈ args → name ≠ "nil")
    (each : ∀ e ∈ args, Follows eval e) :
    InStep ForInt d (lowerConst (ofExprs args) span) (evalConst eval args) := by
  match args, named, each with
  -- any other number of operands is refused by both sides
  | [], _, _ => exact inStep_fail _ _
  | [_], _, _ => exact inStep_fail _ _
  | _ :: _ :: _ :: _, _, _ => exact inStep_fail _ _
  | [place, init], named, each =>
    unfold lowerConst evalConst
    simp only [ofExprs, source_ofExpr]
    refine inStep_bind (inStep_target .const place) fun name _ same => ?_
    obtain ⟨rfl, at', rfl⟩ := same
    have named := named name at' List.mem_cons_self
    refine inStep_bind (each init (by simp) d) fun a v related => ?_
    obtain ⟨n, rfl⟩ := related
    intro s w mirrors
    rw [bind_of_ok get_apply]
    -- both look for a constant of the name, and find one or not together
    have same := mirrors.isFrozen named
    cases frozen : w.env.isFrozen name with
    | false =>
      rw [frozen] at same
      rw [bind_of_ok (updateEnv_of_ok (Environment.defineConst_of_free frozen))]
      simp only [same]
      exact .ok ⟨n, rfl⟩ (mirrors.bindInner name true a n)
    | true =>
      rw [frozen] at same
      rw [bind_of_error (updateEnv_of_error (Environment.defineConst_of_frozen frozen))]
      simp only [same]
      exact .error

theorem inStep_variable (named : name ≠ "nil") :
    InStep ForInt d (lowerVariable name span) (evalVariable name span) := by
  intro s w mirrors
  unfold lowerVariable
  rw [bind_of_ok get_apply]
  rcases mirrors.lookup_cases named with ⟨unknown, unbound⟩ | ⟨slot, b, known, bound, twin⟩
  · have missing : w.env.lookup name = none := Option.map_eq_none_iff.mpr unbound
    rw [evalVariable_of_none missing]
    simp only [unknown]
    exact .error
  · rw [evalVariable_of_some (Environment.lookup_of_binding? bound)]
    simp only [known]
    exact .ok twin.int (mirrors.emit _)

/-- A `let` form computes its values in step, enters its scope in step and leaves it in step. -/
theorem inStep_let {bindings : List (LetBinding Expr)} (nonempty : body ≠ [])
    (inits : ∀ b ∈ bindings, Follows eval b.init) (inner : ∀ e ∈ body, Follows eval e) :
    InStep ForInt d (lowerLet (ofBindings bindings) (ofExprs body)) (evalLet eval bindings body) := by
  -- the values are computed outside, so the scopes are entered with all of them at hand
  have initial : InStep (List.Forall₂ fun p q => p.1 = q.1 ∧ ∃ n, q.2 = TwinLisp.Value.int n) d
      ((ofBindings bindings).mapM fun p => return (p.1, ← p.2.value))
      (bindings.mapM fun b => return (b.name, ← eval b.init)) := by
    rw [ofBindings_eq_map, List.mapM_map]
    refine inStep_mapM fun b hb => ?_
    refine inStep_bind (inits b hb d) fun a v related => ?_
    exact inStep_pure ⟨rfl, related⟩
  unfold lowerLet evalLet
  refine inStep_bind initial fun pairs values same => ?_
  intro s w mirrors
  rw [bind_of_ok (modifyUnit_apply _), bind_of_ok (bindAll_apply pairs)]
  have entered := mirrors.enterScope same
  have run := inStep_body (d := d + 1) nonempty inner _ _ entered
  rw [pushScope_defineAll] at run
  -- the two results as variables, for the cases on how the bodies end together
  generalize hx : lowerBody (ofExprs body) (s.enterScope pairs) = rx at run
  generalize hy : evalBody eval body _ = ry at run
  unfold State.enterScope at hx
  cases run with
  | ok related inside =>
    rw [bind_of_ok hx, Law.within_of_ok (pushScope_defineAll · values) hy]
    exact .ok related (inside.leaveScope mirrors.depth)
  | error =>
    rw [bind_of_error hx, Law.within_of_error (pushScope_defineAll · values) hy]
    exact .error

theorem follows_form {limit : Option Nat} {fuel : Nat} {head : String} {hs : Span} {form : Form}
    (classified : Form.classify head = some form) (straight : form.isStraight)
    (each : ∀ e ∈ args, Follows eval e) (named : ∀ name at', .ident name at' ∈ args → name ≠ "nil") :
    Follows (evalLayer eval limit fuel) (.list (.ident head hs :: args) span) := by
  intro d s w mirrors
  rw [value_list_of_form classified, evalLayer_of_form classified]
  suffices InStep ForInt d (lowerForm form (ofExprs args) span) (evalForm eval limit fuel form args) from
    inStep_withSpan span this s w mirrors
  -- no other form is straight-line code, print apart
  cases form with
  | set => exact inStep_set named each
  | const => exact inStep_const named each
  | not => exact inStep_not each
  | compare op => exact inStep_fail _ _
  | arith op =>
    refine inStep_arith ?_ each
    rintro rfl
    cases straight
  | _ => cases straight

theorem follows_print {limit : Option Nat} {fuel : Nat} {head : String} {hs : Span}
    (form : Form.classify head = some .print)
    (each : ∀ e ∈ args, (∀ text at', e ≠ .str text at') → Follows eval e)
    (literal : ∀ text at', eval (.str text at') = pure (.str text)) :
    Follows (evalLayer eval limit fuel) (.list (.ident head hs :: args) span) := by
  intro d s w mirrors
  rw [value_list_of_form form, evalLayer_of_form form]
  exact inStep_withSpan span (inStep_print each literal) s w mirrors

end Forms

end TwinLisp.Agreement
