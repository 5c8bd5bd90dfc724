import TwinLisp.Eval.Ends
import TwinLisp.Proofs.Eval.Pairing

/-!
Two runs of the same code in the same world, of which the first one may be stopped earlier. Up to
there they are one run, and as no line is taken back, what the first one has printed begins what the
second one prints.
-/

namespace TwinLisp.Eval

/-- The lines that have been printed are never taken back. -/
def printing : Law where
  code _ := True
  value _ := True
  world _ := True
  step w w' := w.lines <+: w'.lines

theorem lines_println (w : World) (line : String) :
    w.lines <+: World.lines { w with output := w.output.println line } := by
  unfold World.lines Output.println
  split
  · rw [Array.toList_push]
    exact List.prefix_append _ _
  · exact List.prefix_refl _

theorem printing_sound : printing.Sound where
  refl _ := List.prefix_refl _
  trans first rest := List.IsPrefix.trans first rest
  items _ _ _ := trivial
  inits _ _ _ := trivial
  body _ _ _ := trivial
  int _ := trivial
  str _ := trivial
  quoted _ := trivial
  lookup _ _ := trivial
  called _ := ⟨fun _ _ => trivial, fun _ _ => trivial⟩
  made _ _ _ _ := trivial
  print _ line := ⟨trivial, lines_println _ line⟩
  create _ := ⟨trivial, List.prefix_refl _⟩
  assign _ _ _ := ⟨trivial, List.prefix_refl _⟩
  const _ _ _ := ⟨trivial, List.prefix_refl _⟩
  defun _ _ _ _ _ _ _ := ⟨trivial, List.prefix_refl _⟩
  enter _ _ := trivial
  leave _ _ step := ⟨trivial, step⟩

/-- What a halt is about; it is not about an expression where the fuel was used up. -/
def Halt.fault? : Halt → Option Fault
  | failed error => some error.fault
  | outOfFuel => none

@[simp]
theorem Halt.fault?_withSpan (halt : Halt) (span : Span) : (halt.withSpan span).fault? = halt.fault? := by
  cases halt <;> rfl

theorem Halt.eq_failed_of_fault? {halt : Halt} {fault : Fault} (h : halt.fault? = some fault) :
    ∃ span, halt = .failed ⟨fault, span⟩ := by
  cases halt with
  | outOfFuel => cases h
  | failed error =>
    cases h
    exact ⟨error.span, rfl⟩

theorem Halt.eq_outOfFuel_of_fault? {halt : Halt} (h : halt.fault? = none) : halt = .outOfFuel := by
  cases halt with
  | outOfFuel => rfl
  | failed => cases h

variable {α β : Type} {stop : Option Fault → Prop}

/-- The computation takes back no line. -/
def Prints (act : EvalM α) : Prop :=
  printing.Obeys (fun _ => True) act

theorem Prints.lines_after {act : EvalM α} (h : Prints act) (w : World) :
    w.lines <+: (after act w).lines :=
  step_after h trivial

/-- The first computation does what the second one does, unless it is stopped for one of the reasons
`stop`; then it has printed the first of the second one's lines. -/
structure CutShort (stop : Option Fault → Prop) (act act' : EvalM α) : Prop where
  prints : Prints act'
  runs : ∀ w, act w = act' w ∨
    ∃ halt u, act w = .error halt u ∧ stop halt.fault? ∧ u.lines <+: (after act' w).lines

/-- What follows a computation only adds to its lines. -/
theorem lines_after_bind {act : EvalM α} {next : α → EvalM β} (rest : ∀ a, Prints (next a))
    (w : World) : (after act w).lines <+: (after (act >>= next) w).lines := by
  cases run : act w with
  | error halt u =>
    have same : after (act >>= next) w = after act w :=
      (after_of_error (bind_of_error run)).trans (after_of_error run).symm
    exact ⟨[], by rw [same, List.append_nil]⟩
  | ok a u =>
    rw [after_of_ok run, after_bind_of_ok run]
    exact (rest a).lines_after u

theorem cutShort_refl {act : EvalM α} (prints : Prints act) : CutShort stop act act :=
  ⟨prints, fun _ => .inl rfl⟩

theorem cutShort_pure (a : α) : CutShort stop (pure a) (pure a) :=
  cutShort_refl (Law.obeys_pure printing_sound trivial)

theorem cutShort_fail (fault : Fault) : CutShort stop (fail fault : EvalM α) (fail fault) :=
  cutShort_refl (Law.obeys_fail printing_sound trivial)

/-- To put an error at a place prints nothing. -/
theorem lines_after_withSpan (span : Span) (act : EvalM α) (w : World) :
    (after (withSpan span act) w).lines = (after act w).lines := by
  cases run : act w with
  | ok a u => rw [after_of_ok run, after_of_ok (withSpan_of_ok run)]
  | error halt u => rw [after_of_error run, after_of_error (withSpan_of_error run)]

/-- Where a run is stopped for a reason, it is stopped for the same reason at whatever place. -/
theorem cutShort_withSpan {act act' : EvalM α} (span : Span) (inner : CutShort stop act act') :
    CutShort stop (withSpan span act) (withSpan span act') where
  prints := Law.obeys_withSpan trivial inner.prints.loosened
  runs w := by
    rcases inner.runs w with same | ⟨halt, u, cut, stops, begun⟩
    · left
      cases run : act' w with
      | ok a u => rw [withSpan_of_ok (same.trans run), withSpan_of_ok run]
      | error halt u => rw [withSpan_of_error (same.trans run), withSpan_of_error run]
    · refine .inr ⟨_, u, withSpan_of_error cut, ?_, ?_⟩
      · rwa [Halt.fault?_withSpan]
      · rwa [lines_after_withSpan]

/-- A run that is stopped at once. -/
theorem cutShort_stopped {halt : Halt} {act : EvalM α} (stops : stop halt.fault?) (prints : Prints act) :
    CutShort stop (throw halt) act :=
  ⟨prints, fun w => .inr ⟨halt, w, rfl, stops, prints.lines_after w⟩⟩

/-- One after the other: either the first part is cut short, or it is the same and the second one is
looked at. -/
theorem cutShort_bind {act act' : EvalM α} {next next' : α → EvalM β} (first : CutShort stop act act')
    (rest : ∀ a, CutShort stop (next a) (next' a)) :
    CutShort stop (act >>= next) (act' >>= next') where
  prints := Law.obeys_bind printing_sound first.prints fun a _ => (rest a).prints
  runs w := by
    -- either both runs have got through the first part, or the first run has been stopped there
    rcases first.runs w with same | ⟨halt, u, cut, stops, begun⟩
    · cases run : act' w with
      | error halt u =>
        rw [bind_of_error (same.trans run), bind_of_error run]
        exact .inl rfl
      | ok a u =>
        rw [bind_of_ok (same.trans run), bind_of_ok run, after_bind_of_ok run]
        exact (rest a).runs u
    · refine .inr ⟨halt, u, bind_of_error cut, stops, ?_⟩
      exact begun.trans (lines_after_bind (fun a => (rest a).prints) w)

/-- Scopes are entered and left without a line, whatever happens inside. -/
theorem cutShort_within {enter : Environment → Environment} {act act' : EvalM α} {scopes : List Frame}
    (entered : ∀ env, enter env = { env with locals := scopes ++ env.locals })
    (inner : CutShort stop act act') : CutShort stop (within enter act) (within enter act') where
  prints := Law.obeys_within printing_sound entered (fun _ _ _ _ => trivial) inner.prints
  runs w := by
    -- leaving scopes changes no lines, so that what holds of the inner runs holds of the whole
    rcases inner.runs (Law.inside w scopes) with same | ⟨halt, u, cut, stops, begun⟩
    · -- the second run may end in a value or an error; its scopes are left in either case
      cases run : act' (Law.inside w scopes) with
      | ok a u =>
        rw [Law.within_of_ok entered (same.trans run), Law.within_of_ok entered run]
        exact .inl rfl
      | error halt u =>
        rw [Law.within_of_error entered (same.trans run), Law.within_of_error entered run]
        exact .inl rfl
    · refine .inr ⟨halt, Law.outside w u, Law.within_of_error entered cut, stops, ?_⟩
      cases run : act' (Law.inside w scopes) with
      | ok a u' =>
        rw [after_of_ok run] at begun
        rwa [after_of_ok (Law.within_of_ok entered run)]
      | error halt' u' =>
        rw [after_of_error run] at begun
        rwa [after_of_error (Law.within_of_error entered run)]

theorem cutShort_forM {f f' : β → EvalM PUnit} (each : ∀ x, CutShort stop (f x) (f' x)) (xs : List β) :
    CutShort stop (xs.forM f) (xs.forM f') := by
  induction xs with
  | nil => exact cutShort_pure _
  | cons x xs ih => exact cutShort_bind (each x) fun _ => ih

theorem cutShort_mapM {f f' : β → EvalM α} (each : ∀ x, CutShort stop (f x) (f' x)) (xs : List β) :
    CutShort stop (xs.mapM f) (xs.mapM f') := by
  induction xs with
  | nil => exact cutShort_pure _
  | cons x xs ih =>
    rw [List.mapM_cons, List.mapM_cons]
    refine cutShort_bind (each x) fun a => ?_
    exact cutShort_bind ih fun as => cutShort_pure (a :: as)

theorem cutShort_foldlM {f f' : α → β → EvalM α} (each : ∀ a x, CutShort stop (f a x) (f' a x))
    (xs : List β) (acc : α) : CutShort stop (xs.foldlM f acc) (xs.foldlM f' acc) := by
  induction xs generalizing acc with
  | nil => exact cutShort_pure acc
  | cons x xs ih =>
    rw [List.foldlM_cons, List.foldlM_cons]
    exact cutShort_bind (each acc x) fun a => ih a

theorem limitLe_refl (limit : Option Nat) : LimitLe limit limit := by
  cases limit with
  | none => trivial
  | some n => exact Nat.le_refl n

section Forms

variable {eval eval' : Expr → EvalM Value} (ih : ∀ e, CutShort stop (eval e) (eval' e))

include ih

theorem cutShort_evalBody (body : List Expr) :
    CutShort stop (evalBody eval body) (evalBody eval' body) :=
  cutShort_foldlM (fun _ e => ih e) body .nil

theorem cutShort_evalInt (e : Expr) : CutShort stop (evalInt eval e) (evalInt eval' e) := by
  refine cutShort_bind (ih e) fun v => ?_
  cases v.toInt64 with
  | ok n => exact cutShort_pure n
  | error fault => exact cutShort_withSpan e.span (cutShort_fail fault)

theorem cutShort_evalComparison (op : CmpOp) (operands : List Expr) :
    CutShort stop (evalComparison eval op operands) (evalComparison eval' op operands) := by
  unfold evalComparison
  split
  next left right =>
    refine cutShort_bind (cutShort_evalInt ih left) fun a => ?_
    exact cutShort_bind (cutShort_evalInt ih right) fun b => cutShort_pure (op.holds a b)
  next => exact cutShort_fail _

theorem cutShort_evalCondition (e : Expr) :
    CutShort stop (evalCondition eval e) (evalCondition eval' e) := by
  unfold evalCondition
  split
  next op operands _ => exact cutShort_withSpan e.span (cutShort_evalComparison ih op operands)
  next => exact cutShort_bind (ih e) fun v => cutShort_pure v.isTruthy

theorem cutShort_evalOperands (op : ArithOp) (acc : Int64) (operands : List Expr) :
    CutShort stop (evalOperands eval op acc operands) (evalOperands eval' op acc operands) := by
  induction operands generalizing acc with
  | nil => exact cutShort_pure acc
  | cons e es rest =>
    unfold evalOperands
    refine cutShort_bind (cutShort_evalInt ih e) fun n => ?_
    cases op.step? acc n with
    | some acc' => exact rest acc'
    | none => exact cutShort_withSpan e.span (cutShort_fail _)

theorem cutShort_evalArith (op : ArithOp) (operands : List Expr) :
    CutShort stop (evalArith eval op operands) (evalArith eval' op operands) := by
  unfold evalArith
  split
  next => exact cutShort_fail _
  next e =>
    split
    · exact cutShort_bind (cutShort_evalInt ih e) fun n => cutShort_pure (Value.int (-n))
    · exact cutShort_fail _
  next e es _ =>
    refine cutShort_bind (cutShort_evalInt ih e) fun n => ?_
    exact cutShort_bind (cutShort_evalOperands ih op n es) fun m => cutShort_pure (Value.int m)

theorem cutShort_evalPrint (args : List Expr) :
    CutShort stop (evalPrint eval args) (evalPrint eval' args) := by
  -- what the two runs print is the same value, or the first one has been stopped before it
  have line (e : Expr) : CutShort stop (do printLine (← eval e).text) (do printLine (← eval' e).text) :=
    cutShort_bind (ih e) fun v => cutShort_refl (Law.obeys_printLine printing_sound v.text)
  have lines := cutShort_bind (cutShort_forM line args) fun _ => cutShort_pure (Value.int 0)
  unfold evalPrint
  split
  · exact cutShort_bind (cutShort_fail _) fun _ => lines
  · exact lines

omit ih in
theorem cutShort_target (form : Form) (e : Expr) :
    CutShort stop (target form e) (target form e) := by
  unfold target
  cases e.ident? with
  | some name => exact cutShort_pure name
  | none => exact cutShort_fail _

omit ih in
theorem cutShort_parameters (form : Form) (e : Expr) :
    CutShort stop (parameters form e) (parameters form e) := by
  unfold parameters
  cases e.names? with
  | some names => exact cutShort_pure names
  | none => exact cutShort_fail _

omit ih in
theorem cutShort_updateEnv (change : Environment → Except Refusal Environment) (fault : Fault) :
    CutShort stop (updateEnv change fault) (updateEnv change fault) :=
  cutShort_refl (Law.obeys_updateEnv printing_sound trivial fun _ _ => ⟨trivial, List.prefix_refl _⟩)

omit ih in
theorem cutShort_makeFunction (name : Option String) (params : List String) (body : List Expr) :
    CutShort stop (makeFunction name params body) (makeFunction name params body) :=
  cutShort_refl ((Law.obeys_makeFunction printing_sound name params fun _ _ => trivial).mono
    fun _ _ => trivial)

theorem cutShort_evalSet (args : List Expr) :
    CutShort stop (evalSet eval args) (evalSet eval' args) := by
  unfold evalSet
  split
  next place init =>
    refine cutShort_bind (cutShort_target .set place) fun name => ?_
    refine cutShort_bind (ih init) fun v => ?_
    exact cutShort_bind (cutShort_updateEnv _ _) fun _ => cutShort_pure v
  next => exact cutShort_fail _

theorem cutShort_evalConst (args : List Expr) :
    CutShort stop (evalConst eval args) (evalConst eval' args) := by
  unfold evalConst
  split
  next place init =>
    refine cutShort_bind (cutShort_target .const place) fun name => ?_
    refine cutShort_bind (ih init) fun v => ?_
    exact cutShort_bind (cutShort_updateEnv _ _) fun _ => cutShort_pure v
  next => exact cutShort_fail _

theorem cutShort_evalIf (args : List Expr) :
    CutShort stop (evalIf eval args) (evalIf eval' args) := by
  unfold evalIf
  split
  next test yes no =>
    refine cutShort_bind (cutShort_evalCondition ih test) fun b => ?_
    cases b with
    | true => exact ih yes
    | false => exact ih no
  next => exact cutShort_fail _

theorem cutShort_evalNot (args : List Expr) :
    CutShort stop (evalNot eval args) (evalNot eval' args) := by
  unfold evalNot
  split
  next e => exact cutShort_bind (ih e) fun v => cutShort_pure _
  next => exact cutShort_fail _

theorem cutShort_evalAnd (args : List Expr) :
    CutShort stop (evalAnd eval args) (evalAnd eval' args) := by
  induction args with
  | nil => exact cutShort_pure _
  | cons e es rest =>
    unfold evalAnd
    refine cutShort_bind (ih e) fun v => ?_
    split
    · exact rest
    · exact cutShort_pure _

theorem cutShort_evalOr (args : List Expr) : CutShort stop (evalOr eval args) (evalOr eval' args) := by
  induction args with
  | nil => exact cutShort_pure _
  | cons e es rest =>
    unfold evalOr
    refine cutShort_bind (ih e) fun v => ?_
    split
    · exact cutShort_pure _
    · exact rest

omit ih in
theorem cutShort_evalDefun (args : List Expr) :
    CutShort stop (evalDefun args) (evalDefun args) := by
  unfold evalDefun
  split
  next place params e es =>
    refine cutShort_bind (cutShort_target .defun place) fun name => ?_
    refine cutShort_bind (cutShort_parameters .defun params) fun names => ?_
    refine cutShort_bind (cutShort_makeFunction _ names (e :: es)) fun f => ?_
    exact cutShort_bind (cutShort_updateEnv _ _) fun _ => cutShort_pure _
  next => exact cutShort_fail _

omit ih in
theorem cutShort_evalLambda (args : List Expr) :
    CutShort stop (evalLambda args) (evalLambda args) := by
  unfold evalLambda
  split
  next params e es =>
    refine cutShort_bind (cutShort_parameters .lambda params) fun names => ?_
    exact cutShort_makeFunction _ names (e :: es)
  next => exact cutShort_fail _

omit ih in
theorem cutShort_evalQuote (args : List Expr) :
    CutShort stop (evalQuote args) (evalQuote args) := by
  unfold evalQuote
  split
  next datum => exact cutShort_pure _
  next => exact cutShort_fail _

theorem cutShort_invoke (f : Closure Value) (args : List Expr) (span : Span) :
    CutShort stop (invoke eval f args span) (invoke eval' f args span) := by
  unfold invoke
  refine cutShort_bind (cutShort_mapM ih args) fun values => ?_
  split
  · exact cutShort_within (pushCall_defineAll · f.captures (f.params.zip values))
      (cutShort_evalBody ih f.body)
  · exact cutShort_withSpan span (cutShort_fail _)

omit ih in
/-- Looking at the world prints nothing. -/
theorem cutShort_get {act act' : World → EvalM α} (each : ∀ w, CutShort stop (act w) (act' w)) :
    CutShort stop (get >>= act) (get >>= act') := by
  refine cutShort_bind (cutShort_refl fun w _ => ?_) each
  exact ⟨trivial, trivial, List.prefix_refl _⟩

theorem cutShort_evalNamedCall (name : String) (args : List Expr) (span : Span) :
    CutShort stop (evalNamedCall eval name args span) (evalNamedCall eval' name args span) := by
  unfold evalNamedCall
  refine cutShort_get fun w => ?_
  split
  next f _ => exact cutShort_invoke ih f args span
  next => exact cutShort_withSpan span (cutShort_fail _)
  next => exact cutShort_withSpan span (cutShort_fail _)

omit ih in
theorem cutShort_evalVariable (name : String) (span : Span) :
    CutShort stop (evalVariable name span) (evalVariable name span) := by
  unfold evalVariable
  refine cutShort_get fun w => ?_
  split
  next v _ => exact cutShort_pure v
  next => exact cutShort_withSpan span (cutShort_fail _)

theorem cutShort_evalLet (bindings : List (LetBinding Expr)) (body : List Expr) :
    CutShort stop (evalLet eval bindings body) (evalLet eval' bindings body) := by
  have init (b : LetBinding Expr) : CutShort stop (do return (b.name, ← eval b.init))
      (do return (b.name, ← eval' b.init)) :=
    cutShort_bind (ih b.init) fun v => cutShort_pure (b.name, v)
  refine cutShort_bind (cutShort_mapM init bindings) fun pairs => ?_
  exact cutShort_within (pushScope_defineAll · pairs) (cutShort_evalBody ih body)

/-- How much further the second run may go; the first one then ends in a way that counts as a stop. -/
structure Bounds (stop : Option Fault → Prop) (limit limit' : Option Nat) (fuel fuel' : Nat) : Prop where
  limit_le : LimitLe limit limit'
  atLimit : limit = limit' ∨ ∀ n, stop (some (.loopLimit n))
  fuel_le : fuel ≤ fuel'
  atEnd : fuel = fuel' ∨ stop none

variable {limit limit' : Option Nat} {fuel fuel' : Nat}

omit ih in
/-- One unit of fuel is used on both sides. -/
theorem Bounds.pred (bounds : Bounds stop limit limit' (fuel + 1) fuel') :
    ∃ rest, fuel' = rest + 1 ∧ Bounds stop limit limit' fuel rest := by
  obtain ⟨rest, rfl⟩ := Nat.exists_eq_add_of_le' (Nat.le_trans (Nat.le_add_left 1 fuel) bounds.fuel_le)
  refine ⟨rest, rfl, bounds.limit_le, bounds.atLimit, ?_, bounds.atEnd.imp_left Nat.succ.inj⟩
  exact Nat.le_of_succ_le_succ bounds.fuel_le

omit ih in
/-- Without fuel the first run prints nothing. -/
theorem Bounds.cutShort_zero (bounds : Bounds stop limit limit' 0 fuel') (run : Nat → EvalM α)
    (stops : run 0 = throw .outOfFuel) (prints : Prints (run fuel')) :
    CutShort stop (throw .outOfFuel) (run fuel') := by
  rcases bounds.atEnd with rfl | stop
  · rw [← stops]
    exact cutShort_refl prints
  · exact cutShort_stopped stop prints

/-- A loop takes no line back, whatever stops it. -/
theorem prints_evalIterations (cond : Expr) (body : List Expr) (done : Nat) :
    Prints (evalIterations eval' limit' cond body fuel' done) :=
  Law.obeys_evalIterations printing_sound (fun e _ => (ih e).prints) limit' trivial trivial
    (fun _ _ => trivial) fuel' done

/-- By induction on the number of rounds that the first run may have. A round leads to the next one
in both runs or in none, unless the limit of the first one is reached. -/
theorem cutShort_evalIterations (bounds : Bounds stop limit limit' fuel fuel') (cond : Expr)
    (body : List Expr) (done : Nat) :
    CutShort stop (evalIterations eval limit cond body fuel done)
      (evalIterations eval' limit' cond body fuel' done) := by
  induction fuel generalizing fuel' done with
  | zero =>
    exact bounds.cutShort_zero (fun n => evalIterations eval' limit' cond body n done) rfl
      (prints_evalIterations ih cond body done)
  | succ fuel rest =>
    obtain ⟨rounds, rfl, left⟩ := bounds.pred
    -- the round that may follow
    have next := rest left (done + 1)
    unfold evalIterations
    refine cutShort_bind (cutShort_evalCondition ih cond) fun b => ?_
    cases b with
    | false => exact cutShort_pure _
    | true =>
      refine cutShort_bind (cutShort_evalBody ih body) fun _ => ?_
      -- the limits are looked at once the body has been run
      cases limit with
      | none =>
        cases limit' with
        | none => exact next
        | some n => exact bounds.limit_le.elim
      | some m =>
        simp only
        split
        next reached =>
          -- the first run stops here; the second one does as well, or it may go on printing
          rcases bounds.atLimit with rfl | stops
          · simp only
            rw [if_pos reached]
            exact cutShort_fail _
          · refine cutShort_stopped (stops m) ?_
            split
            · split
              · exact Law.obeys_fail printing_sound trivial
              · exact next.prints
            · exact next.prints
        next going =>
          cases limit' with
          | none => exact next
          | some n =>
            -- the second limit is no lower, so it is not reached either
            have le : m ≤ n := bounds.limit_le
            simp only
            rw [if_neg (by omega)]
            exact next

/-- Only loops look at the bounds: both runs go round as long as both bounds allow it. -/
theorem cutShort_evalLoop (bounds : Bounds stop limit limit' fuel fuel') (args : List Expr) :
    CutShort stop (evalLoop eval limit fuel args) (evalLoop eval' limit' fuel' args) := by
  unfold evalLoop
  split
  next cond e es => exact cutShort_evalIterations ih bounds cond (e :: es) 0
  next => exact cutShort_fail _

theorem cutShort_evalForm (bounds : Bounds stop limit limit' fuel fuel') (form : Form)
    (args : List Expr) :
    CutShort stop (evalForm eval limit fuel form args)
      (evalForm eval' limit' fuel' form args) := by
  -- form by form; the bounds matter to a loop only
  cases form with
  | print => exact cutShort_evalPrint ih args
  | set => exact cutShort_evalSet ih args
  | const => exact cutShort_evalConst ih args
  | cond => exact cutShort_evalIf ih args
  | not => exact cutShort_evalNot ih args
  | and => exact cutShort_evalAnd ih args
  | or => exact cutShort_evalOr ih args
  | loop => exact cutShort_evalLoop ih bounds args
  | defun => exact cutShort_evalDefun args
  | lambda => exact cutShort_evalLambda args
  | quote => exact cutShort_evalQuote args
  | arith op => exact cutShort_evalArith ih op args
  | compare op => exact cutShort_fail _

theorem cutShort_evalList (bounds : Bounds stop limit limit' fuel fuel') (items : List Expr)
    (span : Span) :
    CutShort stop (evalList eval limit fuel items span) (evalList eval' limit' fuel' items span) := by
  unfold evalList
  split
  next => exact cutShort_withSpan span (cutShort_fail _)
  next head args =>
    split
    -- a name at the head is a form, or else it is called
    next name _ =>
      split
      next form _ => exact cutShort_withSpan span (cutShort_evalForm ih bounds form args)
      next => exact cutShort_evalNamedCall ih name args span
    next =>
      refine cutShort_bind (ih head) fun v => ?_
      split
      next f => exact cutShort_invoke ih f args span
      next => exact cutShort_withSpan span (cutShort_fail _)

theorem cutShort_evalLayer (bounds : Bounds stop limit limit' fuel fuel') (e : Expr) :
    CutShort stop (evalLayer eval limit fuel e) (evalLayer eval' limit' fuel' e) := by
  cases e with
  | int n span => exact cutShort_pure _
  | str text span => exact cutShort_pure _
  | ident name span => exact cutShort_evalVariable name span
  | quote datum style span => exact cutShort_pure _
  | list items span => exact cutShort_evalList ih bounds items span
  | letIn bindings body span => exact cutShort_evalLet ih bindings body

end Forms

variable {config config' : Config} {fuel fuel' : Nat}

/-- A run with a lower limit and with less fuel is one with a higher limit and with more fuel, up to
where it is stopped. -/
theorem cutShort_evalWith (bounds : Bounds stop config.loopLimit config'.loopLimit fuel fuel')
    (e : Expr) : CutShort stop (evalWith config fuel e) (evalWith config' fuel' e) := by
  induction fuel generalizing fuel' e with
  | zero =>
    exact bounds.cutShort_zero (fun n => evalWith config' n e) rfl
      (Law.obeys_evalWith printing_sound config' fuel' trivial)
  | succ fuel ih =>
    obtain ⟨rest, rfl, left⟩ := bounds.pred
    exact cutShort_evalLayer (ih left) left e

/-- A program whose runs differ in fuel or in the limit on loops. -/
theorem cutShort_runWith (bounds : Bounds stop config.loopLimit config'.loopLimit fuel fuel')
    (program : List Expr) :
    CutShort stop (runWith config fuel program) (runWith config' fuel' program) :=
  cutShort_evalBody (cutShort_evalWith bounds) program

end TwinLisp.Eval
