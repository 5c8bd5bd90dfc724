import TwinLisp.Eval.Forms
import TwinLisp.Proofs.Execution.Variables
import TwinLisp.Proofs.Run

/-! Code that runs one piece after the other, given that the code of expressions does what it should. -/

namespace TwinLisp.Execution

open TwinLisp.Graph TwinLisp.Graph.Lowering TwinLisp.Graph.Exec TwinLisp.Eval TwinLisp.Expr

/-- Wherever the code of a settled expression is run, it does what evaluation does. -/
def Simulates (program : List Expr) (m : Module) (eval : Expr → EvalM TwinLisp.Value) : Prop :=
  ∀ {c : Scene program m} {p : Place} {e : Expr} {s s' : State} {a : Operand} {w w' : World}
    {v : TwinLisp.Value} {x : Activation}, Lowering.Value e s a s' →
    Settled (Reserved program) p e → Stage c p s s' → eval e w = .ok v w' → Synced c s w x →
    Reaches c s s' w w' x (Yields s'.fresh a v)

/-- A string yields itself. -/
def Literal (eval : Expr → EvalM TwinLisp.Value) : Prop :=
  ∀ {text : String} {span : Span} {v : TwinLisp.Value} {w w' : World},
    eval (.str text span) w = .ok v w' → v = .str text ∧ w' = w

variable {program : List Expr} {m : Module} {c : Scene program m} {p : Place} {e : Expr}
  {es : List Expr} {s s₁ s' : State} {a : Operand} {as : List Operand} {w w' : World}
  {v : TwinLisp.Value} {vs : List TwinLisp.Value} {x : Activation} {n : Int64}
  {eval : Expr → EvalM TwinLisp.Value}

theorem Yields.held {bound : Nat} (h : Yields bound a (.int n) x) : Held bound x a n := by
  obtain ⟨_, ⟨⟩, held⟩ := h
  exact held

/-- A value stays what it is where the earlier values do. -/
theorem Yields.keep {bound bound' : Nat} {y : Activation} (h : Yields bound a v x)
    (keeps : ∀ v < bound, y.values v = x.values v) (le : bound ≤ bound') : Yields bound' a v y := by
  obtain ⟨n, rfl, held⟩ := h
  exact ⟨n, rfl, held.keep keeps le⟩

section

variable (sim : Simulates program m eval)

include sim

/-- The operands of calls and the values of `let` forms. -/
theorem reaches_values (h : Values es s as s') (settled : SettledAll (Reserved program) p es)
    (stage : Stage c p s s') (run : es.mapM eval w = .ok vs w') (synced : Synced c s w x) :
    Reaches c s s' w w' x fun y => List.Forall₂ (Yields s'.fresh · · y) as vs := by
  induction es generalizing p s as w vs x with
  | nil =>
    cases h
    cases run
    exact .still synced .nil
  | cons e es ih =>
    cases h with
    | cons first rest =>
      rw [List.mapM_cons] at run
      obtain ⟨v, w₁, evaluated, others⟩ := bind_ok_iff.mp run
      obtain ⟨vs, w₂, rested, done⟩ := bind_ok_iff.mp others
      obtain ⟨rfl, rfl⟩ := pure_ok_iff.mp done
      have here := first.passage stage.going settled.first
      have there := rest.passage here.after settled.rest
      have reached := sim first settled.first (stage.first there rfl) evaluated synced
      refine reached.trans here.fresh_le fun y synced _ yields => ?_
      -- the first value is still there when the others have been computed
      refine (ih rest settled.rest (stage.rest here) rested synced).mono fun z keeps others => ?_
      exact .cons (yields.keep keeps there.fresh_le) others

/-- A sequence yields its last value. -/
theorem reaches_foldlM {d : Operand} {u : TwinLisp.Value} (h : Values es s as s')
    (settled : SettledAll (Reserved program) p es) (stage : Stage c p s s')
    (run : es.foldlM (fun _ e => eval e) u w = .ok v w') (synced : Synced c s w x)
    (yields : Yields s.fresh d u x) : Reaches c s s' w w' x (Yields s'.fresh (as.getLastD d) v) := by
  induction es generalizing p s as w u d x with
  | nil =>
    cases h
    cases run
    exact .still synced yields
  | cons e es ih =>
    cases h with
    | cons first rest =>
      rw [List.foldlM_cons] at run
      obtain ⟨u, w₁, run, others⟩ := bind_ok_iff.mp run
      have here := first.passage stage.going settled.first
      have there := rest.passage here.after settled.rest
      have reached := sim first settled.first (stage.first there rfl) run synced
      refine reached.trans here.fresh_le fun y synced _ yields => ?_
      -- only the last value counts, on both sides
      rw [List.getLastD_cons]
      exact ih rest settled.rest (stage.rest here) others synced yields

/-- The value of a body is that of its last expression. -/
theorem reaches_body (nonempty : es ≠ []) (h : Values es s as s')
    (settled : SettledAll (Reserved program) p es) (stage : Stage c p s s')
    (run : evalBody eval es w = .ok v w') (synced : Synced c s w x) :
    Reaches c s s' w w' x (Yields s'.fresh (lastOf as) v) := by
  cases es with
  | nil => exact absurd rfl nonempty
  | cons e es =>
    cases h with
    | cons first rest =>
      unfold evalBody at run
      rw [List.foldlM_cons] at run
      obtain ⟨u, w₁, run, others⟩ := bind_ok_iff.mp run
      have here := first.passage stage.going settled.first
      have there := rest.passage here.after settled.rest
      have reached := sim first settled.first (stage.first there rfl) run synced
      -- the value of the first form is dropped if there are others
      refine reached.trans here.fresh_le fun y synced _ yields => ?_
      unfold lastOf
      rw [List.getLastD_cons]
      exact reaches_foldlM sim rest settled.rest (stage.rest here) others synced yields

/-- An operand of arithmetic is an integer. -/
theorem reaches_evalInt (h : Lowering.Value e s a s') (settled : Settled (Reserved program) p e)
    (stage : Stage c p s s') (run : evalInt eval e w = .ok n w') (synced : Synced c s w x) :
    Reaches c s s' w w' x fun y => Held s'.fresh y a n := by
  obtain ⟨v, w₁, run, rest⟩ := bind_ok_iff.mp run
  have reached := sim h settled stage run synced
  obtain ⟨ls, y, ran, k, rfl, held⟩ := reached
  obtain ⟨rfl, rfl⟩ := pure_ok_iff.mp rest
  exact ⟨ls, y, ran, held⟩

/-- The rest of the operands of arithmetic. -/
theorem reaches_operands {op : ArithOp} {acc r : Operand} {k : Int64} (h : Operands op acc es s r s')
    (settled : SettledAll (Reserved program) p es) (stage : Stage c p s s')
    (run : evalOperands eval op k es w = .ok n w') (synced : Synced c s w x)
    (held : Held s.fresh x acc k) : Reaches c s s' w w' x fun y => Held s'.fresh y r n := by
  induction es generalizing p s acc k w x with
  | nil =>
    cases h
    cases run
    exact .still synced held
  | cons e es ih =>
    cases h with
    | @cons _ _ _ _ _ a s₁ _ _ value _ rest =>
      unfold evalOperands at run
      obtain ⟨j, w₁, evaluated, run⟩ := bind_ok_iff.mp run
      have here := value.passage stage.going settled.first
      have moved := moved_emit here.after.isOpen (.arith op acc a)
      have emitted := here.andMoved moved (open_emit here.after.isOpen _)
      have there := rest.passage emitted.after settled.rest
      -- what comes behind the first operand: the operation, and the other operands
      have before := stage.first there rfl
      have reached := reaches_evalInt sim value settled.first (before.before moved) evaluated synced
      refine reached.trans here.fresh_le fun y synced keeps right => ?_
      have left := held.keep keeps here.fresh_le
      -- a division by zero is an error, which this run does not end in
      cases stepped : op.step? k j with
      | none =>
        rw [stepped] at run
        cases run
      | some next =>
        rw [stepped] at run
        have computed := compute_arith left.int right.int stepped
        have after := stage.coming.ahead.back there.grown there.grows
        refine (reaches_int here.after.isOpen after synced computed).trans moved.fresh_le
          fun z synced _ yields => ?_
        exact ih rest settled.rest (stage.rest emitted) run synced yields.held

/-- A value is computed and compared with zero. -/
theorem reaches_compared (op : CmpOp) (h : Lowering.Value e s a s')
    (settled : Settled (Reserved program) p e)
    (stage : Stage c p s (s'.emit (.compare op a (.const 0)))) (run : eval e w = .ok v w')
    (synced : Synced c s w x) : ∃ n, v = .int n ∧
      Reaches c s (s'.emit (.compare op a (.const 0))) w w' x
        fun y => y.values s'.fresh = some (.truth (op.holds n 0)) := by
  have here := h.passage stage.going settled
  have before := stage.before (moved_emit here.after.isOpen (.compare op a (.const 0)))
  obtain ⟨ls, y, ran, n, rfl, held⟩ := sim h settled before run synced
  have compared := reaches_emit here.after.isOpen stage.coming.ahead ran.synced
    (compute_compare held.int (held_const 0 y 0).int)
  exact ⟨n, rfl, ran.andThen here.fresh_le compared⟩

/-- A condition comes out as it is evaluated. -/
theorem reaches_test {t : ValueId} {truth : Bool} (h : Test e s t s')
    (settled : Settled (Reserved program) p e) (stage : Stage c p s s')
    (run : evalCondition eval e w = .ok truth w') (synced : Synced c s w x) :
    Reaches c s s' w w' x fun y => y.values t = some (.truth truth) := by
  cases h with
  | @compare head hs left right span _ op a s₁ b s₂ form first second =>
    have comparison : (Expr.list [.ident head hs, left, right] span).comparison?
        = some (op, [left, right]) := by
      simp only [comparison?, form]
    unfold evalCondition at run
    rw [comparison] at run
    replace run := withSpan_ok_iff.mp run
    obtain ⟨k, w₁, evaluated, run⟩ := bind_ok_iff.mp run
    obtain ⟨n, w₂, evaluated', run⟩ := bind_ok_iff.mp run
    obtain ⟨rfl, rfl⟩ := pure_ok_iff.mp run
    have settled := settled.operands form rfl
    rw [show (Form.compare op).branches = false from rfl, Place.under_false] at settled
    have here := first.passage stage.going settled.first
    have there := second.passage here.after settled.rest.first
    have stage₂ := stage.before (moved_emit there.after.isOpen (.compare op a b))
    have reached := reaches_evalInt sim first settled.first (stage₂.first there rfl) evaluated synced
    refine reached.trans here.fresh_le fun y synced _ left => ?_
    have reached := reaches_evalInt sim second settled.rest.first (stage₂.rest here) evaluated' synced
    refine reached.trans there.fresh_le fun z synced keeps right => ?_
    -- the second operand is computed behind the first, whose value stays
    have left := left.keep keeps there.fresh_le
    exact reaches_emit there.after.isOpen stage.coming.ahead synced (compute_compare left.int right.int)
  | @nonzero _ _ a s₁ plain value =>
    unfold evalCondition at run
    rw [plain] at run
    obtain ⟨v, w₁, evaluated, run⟩ := bind_ok_iff.mp run
    obtain ⟨rfl, rfl⟩ := pure_ok_iff.mp run
    -- any other condition is compared with zero
    obtain ⟨n, rfl, reached⟩ := reaches_compared sim .ne value settled stage evaluated synced
    exact reached

/-- The arguments of `print` are printed one after the other. -/
theorem reaches_prints (literal : Literal eval) {u : PUnit} (h : Prints es s s')
    (settled : SettledAll (Reserved program) p es) (stage : Stage c p s s')
    (run : (es.forM fun e => do printLine (← eval e).text) w = .ok u w') (synced : Synced c s w x) :
    Reaches c s s' w w' x fun _ => True := by
  induction es generalizing p s w x with
  | nil =>
    cases h
    cases run
    exact .still synced trivial
  | cons e es ih =>
    obtain ⟨_, w₂, printed, others⟩ := bind_ok_iff.mp run
    obtain ⟨v, w₁, evaluated, printed⟩ := bind_ok_iff.mp printed
    cases printed
    cases h with
    | @str text span _ _ _ rest =>
      obtain ⟨rfl, rfl⟩ := literal evaluated
      -- a text is put among the strings of the module, which adds no code
      have interned : Passage (Reserved program) p [] s (s.intern text).2 := .intern stage.going text
      have going := interned.after
      have moved := moved_perform going.isOpen (.printStr (s.intern text).1)
      have performed := interned.andMoved moved (open_perform going.isOpen _)
      have settled := settled.rest
      rw [consts_str] at settled
      have there := rest.passage performed.after settled
      have after := stage.coming.ahead.back there.grown there.grows
      have known := (stage.coming.back there rfl).back_moved moved
      have known := known.ahead.strings _ _ (strings_intern s text)
      have synced : Synced c (s.intern text).2 _ x := ⟨synced.here, synced.frames⟩
      refine (Reaches.still (P := fun _ => True) synced trivial).trans (Nat.le_refl _) fun y synced _ _ => ?_
      refine (reaches_printStr going.isOpen after synced known).trans performed.fresh_le fun z synced _ _ => ?_
      exact ih rest settled (stage.rest performed) others synced
    | @int _ _ _ a s₁ _ value rest =>
      -- everything else is computed first, and what it prints itself comes before it
      have here := value.passage stage.going settled.first
      have moved := moved_perform here.after.isOpen (.printInt a)
      have performed := here.andMoved moved (open_perform here.after.isOpen _)
      have there := rest.passage performed.after settled.rest
      have before := stage.first there rfl
      have reached := sim value settled.first (before.before moved) evaluated synced
      refine reached.trans here.fresh_le fun y synced _ yields => ?_
      obtain ⟨n, rfl, held⟩ := yields
      have after := stage.coming.ahead.back there.grown there.grows
      refine (reaches_printInt here.after.isOpen after synced held.int).trans moved.fresh_le
        fun z synced _ _ => ?_
      exact ih rest settled.rest (stage.rest performed) others synced

end

end TwinLisp.Execution
