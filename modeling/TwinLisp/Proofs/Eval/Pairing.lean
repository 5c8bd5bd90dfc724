import TwinLisp.Proofs.Environment
import TwinLisp.Proofs.Eval.Law

/-!
Two evaluations of the same code side by side. A pairing says which code may run, which values stand
for each other and which worlds do; if the steps that touch the world keep to it, so do the runs of
every expression: the second run does what the first one does.
-/

namespace TwinLisp

/-- Two values that no step of evaluation tells apart: the same data, or functions with the same
code. -/
inductive Value.LooksLike : Value → Value → Prop
  | data {v : Value} (data : v.function? = none) : LooksLike v v
  | function {f g : Closure Value} (name : g.name = f.name) (params : g.params = f.params)
    (body : g.body = f.body) : LooksLike (.function f) (.function g)

namespace Value.LooksLike

variable {v v' : Value} (h : v.LooksLike v')

include h

/-- Values that look alike print the same. -/
theorem text_eq : v'.text = v.text := by
  cases h with
  | data => rfl
  | function => simp [Value.text]

theorem isTruthy_eq : v'.isTruthy = v.isTruthy := by
  cases h <;> rfl

theorem toInt64_eq : v'.toInt64 = v.toInt64 := by
  cases h <;> rfl

omit h in
/-- Functions that look alike have the same code. -/
theorem function_eq {f g : Closure Value} (h : LooksLike (.function f) (.function g)) :
    g.name = f.name ∧ g.params = f.params ∧ g.body = f.body := by
  cases h with
  | data data => cases data
  | function name params body => exact ⟨name, params, body⟩

end Value.LooksLike

theorem Value.function?_quoted (e : Expr) : (Value.quoted e).function? = none := by
  cases e <;> rfl

namespace Eval

/-- A list that is headed by the word of a form is evaluated as that form. -/
theorem evalLayer_of_form {eval : Expr → EvalM Value} {limit : Option Nat} {fuel : Nat} {head : String}
    {hs span : Span} {args : List Expr} {form : Form} (classified : Form.classify head = some form) :
    evalLayer eval limit fuel (.list (.ident head hs :: args) span)
      = withSpan span (evalForm eval limit fuel form args) := by
  simp only [evalLayer, evalList, Expr.ident?, classified]

/-- The place of a form does not matter to a run that succeeds. -/
theorem evalLayer_ok_iff_of_form {eval : Expr → EvalM Value} {limit : Option Nat} {fuel : Nat}
    {head : String} {hs span : Span} {args : List Expr} {form : Form} {w u : World} {v : Value}
    (classified : Form.classify head = some form) :
    evalLayer eval limit fuel (.list (.ident head hs :: args) span) w = .ok v u ↔
      evalForm eval limit fuel form args w = .ok v u := by
  rw [evalLayer_of_form classified, withSpan_ok_iff]

/-- A `let` form computes its values before it names them. -/
theorem evalLet_eq (eval : Expr → EvalM Value) (bindings : List (LetBinding Expr))
    (body : List Expr) : evalLet eval bindings body = (do
      let values ← bindings.mapM fun b => eval b.init
      within (fun env => env.pushScope.defineAll ((bindings.map (·.name)).zip values))
        (evalBody eval body)) := by
  -- names are of no concern to the values, so they can be put to them in the end
  have named (bs : List (LetBinding Expr)) :
      (bs.mapM fun b => do return (b.name, ← eval b.init)) = (do
        let values ← bs.mapM fun b => eval b.init
        return (bs.map (·.name)).zip values) := by
    induction bs with
    | nil => rfl
    | cons b bs ih =>
      rw [List.mapM_cons, List.mapM_cons, ih]
      simp
  unfold evalLet
  rw [named]
  simp

/-- What is claimed of two evaluations of the same code: `Scope` describes the frames that are open
around the code. -/
structure Pairing where
  Scope : Type
  code : Scope → Expr → Prop
  value : Value → Value → Prop
  world : Scope → World → World → Prop

namespace Pairing

/-- The second run has ended as the first one has. -/
structure Matches {α : Type} (P : Pairing) (c : P.Scope) (result : α → α → Prop)
    (run run' : EStateM.Result Halt World α) : Prop where
  ok : ∀ a u, run = .ok a u → ∃ a' u', run' = .ok a' u' ∧ result a a' ∧ P.world c u u'
  error : ∀ halt u, run = .error halt u →
    ∃ u', run' = .error halt u' ∧ P.world c u u'

/-- In worlds that stand for each other, the second computation does what the first one does. -/
def Agree {α : Type} (P : Pairing) (c : P.Scope) (result : α → α → Prop) (act act' : EvalM α) :
    Prop :=
  ∀ w w', P.world c w w' → P.Matches c result (act w) (act' w')

/-- Two changes of the environment succeed together, with worlds that stand for each other. -/
structure Together (P : Pairing) (c : P.Scope) (w w' : World)
    (change change' : Except Refusal Environment) : Prop where
  ok : ∀ env, change = .ok env →
    ∃ env', change' = .ok env' ∧ P.world c { w with env } { w' with env := env' }
  error : ∀ refusal, change = .error refusal → ∃ refusal', change' = .error refusal'

/-- The scopes that evaluation enters with related frames, and the way back out of them. -/
def Enters (P : Pairing) (c : P.Scope) (w w' : World) (scopes scopes' : List Frame)
    (body : List Expr) : Prop :=
  ∃ c', P.world c' (Law.inside w scopes) (Law.inside w' scopes') ∧ (∀ e ∈ body, P.code c' e) ∧
    ∀ u u', P.world c' u u' → P.world c (Law.outside w u) (Law.outside w' u')

/-- The steps of evaluation that touch the world keep to the pairing. -/
structure Sound (P : Pairing) : Prop where
  shape : ∀ {v v'}, P.value v v' → v.LooksLike v'
  data : ∀ {v}, v.function? = none → P.value v v
  operands : ∀ {c head hs args span form}, P.code c (.list (.ident head hs :: args) span) →
    Form.classify head = some form → form ≠ .quote → form ≠ .lambda → form ≠ .defun →
    ∀ e ∈ args, P.code c e
  call : ∀ {c head hs args span}, P.code c (.list (.ident head hs :: args) span) →
    Form.classify head = none → P.code c (.ident head hs) ∧ ∀ e ∈ args, P.code c e
  indirect : ∀ {c head args span}, P.code c (.list (head :: args) span) → head.ident? = none →
    ∀ e ∈ head :: args, P.code c e
  inits : ∀ {c bindings body span}, P.code c (.letIn bindings body span) →
    ∀ b ∈ bindings, P.code c b.init
  lookup : ∀ {c w w' name span}, P.code c (.ident name span) → P.world c w w' →
    Option.Rel P.value (w.env.lookup name) (w'.env.lookup name)
  print : ∀ {c w w'}, P.world c w w' → ∀ line,
    P.world c { w with output := w.output.println line } { w' with output := w'.output.println line }
  lambda : ∀ {c w w' head hs params body span names}, P.world c w w' →
    P.code c (.list (.ident head hs :: params :: body) span) →
    Form.classify head = some .lambda → params.names? = some names →
    P.value (.function ⟨w.created, none, names, body, w.env.snapshot⟩)
        (.function ⟨w'.created, none, names, body, w'.env.snapshot⟩) ∧
      P.world c { w with created := w.created + 1 } { w' with created := w'.created + 1 }
  assign : ∀ {c w w' name span v v'}, P.code c (.ident name span) → P.world c w w' →
    P.value v v' → P.Together c w w' (w.env.assign name v) (w'.env.assign name v')
  const : ∀ {c w w' name span v v'}, P.code c (.ident name span) → P.world c w w' →
    P.value v v' → P.Together c w w' (w.env.defineConst name v) (w'.env.defineConst name v')
  defun : ∀ {c w w' head hs name ns params body span names}, P.world c w w' →
    P.code c (.list (.ident head hs :: .ident name ns :: params :: body) span) →
    Form.classify head = some .defun → params.names? = some names →
    P.world c { w with created := w.created + 1 } { w' with created := w'.created + 1 } ∧
    P.Together c { w with created := w.created + 1 } { w' with created := w'.created + 1 }
      (w.env.defineFunction name (.function ⟨w.created, some name, names, body, w.env.snapshot⟩))
      (w'.env.defineFunction name (.function ⟨w'.created, some name, names, body, w'.env.snapshot⟩))
  invoke : ∀ {c w w' f g values values'}, P.world c w w' →
    P.value (.function f) (.function g) → List.Forall₂ P.value values values' →
    values.length = f.arity →
    P.Enters c w w' [scopeOf (f.params.zip values), f.captures]
      [scopeOf (g.params.zip values'), g.captures] f.body
  letIn : ∀ {c w w' bindings body span values values'}, P.world c w w' →
    P.code c (.letIn bindings body span) → List.Forall₂ P.value values values' →
    values.length = bindings.length →
    P.Enters c w w' [scopeOf ((bindings.map (·.name)).zip values)]
      [scopeOf ((bindings.map (·.name)).zip values')] body

variable {P : Pairing} {c : P.Scope} {α β : Type} {w w' : World}

theorem matches_ok {R : α → α → Prop} {a a' : α} (related : R a a') (worlds : P.world c w w') :
    P.Matches c R (.ok a w) (.ok a' w') where
  ok _ _ h := by
    cases h
    exact ⟨a', w', rfl, related, worlds⟩
  error _ _ h := by cases h

theorem matches_error {R : α → α → Prop} (halt : Halt) (worlds : P.world c w w') :
    P.Matches c R (.error halt w) (.error halt w') where
  ok _ _ h := by cases h
  error _ _ h := by
    cases h
    exact ⟨w', rfl, worlds⟩

theorem agree_pure {R : α → α → Prop} {a a' : α} (related : R a a') :
    P.Agree c R (pure a) (pure a') :=
  fun _ _ worlds => matches_ok related worlds

theorem agree_throw {R : α → α → Prop} (halt : Halt) :
    P.Agree c R (throw halt) (throw halt) :=
  fun _ _ worlds => matches_error halt worlds

theorem agree_fail {R : α → α → Prop} (fault : Fault) : P.Agree c R (fail fault) (fail fault) :=
  agree_throw _

/-- An error of both runs is put at the same place. -/
theorem agree_withSpan {R : α → α → Prop} {act act' : EvalM α} (span : Span)
    (inner : P.Agree c R act act') : P.Agree c R (withSpan span act) (withSpan span act') := by
  intro w w' worlds
  have run := inner w w' worlds
  cases hr : act w with
  | ok a u =>
    obtain ⟨a', u', hr', related, worlds'⟩ := run.ok a u hr
    rw [withSpan_of_ok hr, withSpan_of_ok hr']
    exact matches_ok related worlds'
  | error halt u =>
    obtain ⟨u', hr', worlds'⟩ := run.error halt u hr
    rw [withSpan_of_error hr, withSpan_of_error hr']
    exact matches_error _ worlds'

theorem Matches.bind {R : α → α → Prop} {S : β → β → Prop} {act act' : EvalM α}
    {next next' : α → EvalM β} (first : P.Matches c R (act w) (act' w'))
    (rest : ∀ a a' u u', act w = .ok a u → act' w' = .ok a' u' → R a a' → P.world c u u' →
      P.Matches c S (next a u) (next' a' u')) :
    P.Matches c S ((act >>= next) w) ((act' >>= next') w') := by
  cases run : act w with
  | ok a u =>
    obtain ⟨a', u', run', related, worlds⟩ := first.ok a u run
    rw [bind_of_ok run, bind_of_ok run']
    exact rest a a' u u' run run' related worlds
  | error halt u =>
    rw [bind_of_error run]
    obtain ⟨u', run', worlds⟩ := first.error halt u run
    rw [bind_of_error run']
    exact matches_error halt worlds

/-- The second part is compared in whatever worlds the first one leaves. -/
theorem agree_bind {R : α → α → Prop} {S : β → β → Prop} {act act' : EvalM α}
    {next next' : α → EvalM β} (first : P.Agree c R act act')
    (rest : ∀ a a', R a a' → P.Agree c S (next a) (next' a')) :
    P.Agree c S (act >>= next) (act' >>= next') :=
  fun w w' worlds => (first w w' worlds).bind fun a a' u u' _ _ related worlds' =>
    rest a a' related u u' worlds'

theorem agree_forM {f f' : β → EvalM PUnit} {xs : List β}
    (each : ∀ x ∈ xs, P.Agree c (fun _ _ => True) (f x) (f' x)) :
    P.Agree c (fun _ _ => True) (xs.forM f) (xs.forM f') := by
  induction xs with
  | nil => exact agree_pure trivial
  | cons x xs ih =>
    refine agree_bind (each x List.mem_cons_self) fun _ _ _ => ?_
    exact ih fun y hy => each y (List.mem_cons_of_mem x hy)

theorem agree_mapM {R : α → α → Prop} {f f' : β → EvalM α} {xs : List β}
    (each : ∀ x ∈ xs, P.Agree c R (f x) (f' x)) :
    P.Agree c (fun as as' => List.Forall₂ R as as' ∧ as.length = xs.length)
      (xs.mapM f) (xs.mapM f') := by
  induction xs with
  | nil => exact agree_pure ⟨.nil, rfl⟩
  | cons x xs ih =>
    rw [List.mapM_cons, List.mapM_cons]
    refine agree_bind (each x List.mem_cons_self) fun a a' ha => ?_
    refine agree_bind (ih fun y hy => each y (List.mem_cons_of_mem x hy)) fun as as' has => ?_
    exact agree_pure ⟨.cons ha has.1, congrArg (· + 1) has.2⟩

theorem agree_foldlM {R : α → α → Prop} {f f' : α → β → EvalM α} {xs : List β} {acc acc' : α}
    (hacc : R acc acc') (each : ∀ x ∈ xs, ∀ a a', R a a' → P.Agree c R (f a x) (f' a' x)) :
    P.Agree c R (xs.foldlM f acc) (xs.foldlM f' acc') := by
  induction xs generalizing acc acc' with
  | nil => exact agree_pure hacc
  | cons x xs ih =>
    rw [List.foldlM_cons, List.foldlM_cons]
    refine agree_bind (each x List.mem_cons_self acc acc' hacc) fun a a' ha => ?_
    exact ih ha fun y hy => each y (List.mem_cons_of_mem x hy)

/-- Environments are changed together, or both changes are refused. -/
theorem matches_updateEnv {change change' : Environment → Except Refusal Environment}
    (fault : Fault) (worlds : P.world c w w')
    (together : P.Together c w w' (change w.env) (change' w'.env)) :
    P.Matches c (fun _ _ => True) (updateEnv change fault w) (updateEnv change' fault w') := by
  cases changed : change w.env with
  | ok env =>
    obtain ⟨env', changed', worlds'⟩ := together.ok env changed
    rw [updateEnv_of_ok changed, updateEnv_of_ok changed']
    exact matches_ok trivial worlds'
  | error refusal =>
    obtain ⟨refusal', changed'⟩ := together.error refusal changed
    rw [updateEnv_of_error changed, updateEnv_of_error changed']
    exact matches_error _ worlds

/-- Scopes are entered and left together. -/
theorem agree_within {R : α → α → Prop} {enter enter' : Environment → Environment}
    {act act' : EvalM α} {scopes scopes' : List Frame} {body : List Expr}
    (entered : ∀ env, enter env = { env with locals := scopes ++ env.locals })
    (entered' : ∀ env, enter' env = { env with locals := scopes' ++ env.locals })
    (enters : ∀ w w', P.world c w w' → P.Enters c w w' scopes scopes' body)
    (inner : ∀ c', (∀ e ∈ body, P.code c' e) → P.Agree c' R act act') :
    P.Agree c R (within enter act) (within enter' act') := by
  intro w w' worlds
  obtain ⟨c', worlds', code, leave⟩ := enters w w' worlds
  -- the body is run in worlds with more scopes, which are left again whatever happens in it
  have inner := inner c' code _ _ worlds'
  cases run : act (Law.inside w scopes) with
  | ok a u =>
    obtain ⟨a', u', run', related, worlds''⟩ := inner.ok a u run
    rw [Law.within_of_ok entered run, Law.within_of_ok entered' run']
    exact matches_ok related (leave u u' worlds'')
  | error halt u =>
    rw [Law.within_of_error entered run]
    obtain ⟨u', run', worlds''⟩ := inner.error halt u run
    rw [Law.within_of_error entered' run']
    exact matches_error halt (leave u u' worlds'')

section Forms

variable (sound : P.Sound) {eval eval' : Expr → EvalM Value}
  (ih : ∀ {c e}, P.code c e → P.Agree c P.value (eval e) (eval' e))

include sound

omit ih in
theorem agree_printLine (line : String) :
    P.Agree c (fun _ _ => True) (printLine line) (printLine line) :=
  fun _ _ worlds => matches_ok trivial (sound.print worlds line)

include ih

theorem agree_evalBody {body : List Expr} (hbody : ∀ e ∈ body, P.code c e) :
    P.Agree c P.value (evalBody eval body) (evalBody eval' body) :=
  agree_foldlM (sound.data rfl) fun e he _ _ _ => ih (hbody e he)

theorem agree_evalInt {e : Expr} (he : P.code c e) :
    P.Agree c Eq (evalInt eval e) (evalInt eval' e) := by
  refine agree_bind (ih he) fun v v' hv => ?_
  rw [(sound.shape hv).toInt64_eq]
  cases v.toInt64 with
  | ok n => exact agree_pure rfl
  | error fault => exact agree_withSpan e.span (agree_fail fault)

theorem agree_evalComparison (op : CmpOp) {operands : List Expr} (hcode : ∀ e ∈ operands, P.code c e) :
    P.Agree c Eq (evalComparison eval op operands) (evalComparison eval' op operands) := by
  unfold evalComparison
  split
  next left right =>
    refine agree_bind (agree_evalInt sound ih (hcode left (by simp))) fun a _ ha => ?_
    refine agree_bind (agree_evalInt sound ih (hcode right (by simp))) fun b _ hb => ?_
    rw [ha, hb]
    exact agree_pure rfl
  next => exact agree_fail _

theorem agree_evalCondition {e : Expr} (he : P.code c e) :
    P.Agree c Eq (evalCondition eval e) (evalCondition eval' e) := by
  unfold evalCondition
  split
  next op operands comparison =>
    obtain ⟨head, hs, span, rfl, form⟩ := Expr.eq_list_of_comparison? comparison
    have code := sound.operands he form nofun nofun nofun
    exact agree_withSpan _ (agree_evalComparison sound ih op code)
  next =>
    refine agree_bind (ih he) fun v v' hv => ?_
    exact agree_pure (sound.shape hv).isTruthy_eq.symm

theorem agree_evalOperands (op : ArithOp) (acc : Int64) {operands : List Expr}
    (hcode : ∀ e ∈ operands, P.code c e) :
    P.Agree c Eq (evalOperands eval op acc operands) (evalOperands eval' op acc operands) := by
  induction operands generalizing acc with
  | nil => exact agree_pure rfl
  | cons e es rest =>
    unfold evalOperands
    refine agree_bind (agree_evalInt sound ih (hcode e List.mem_cons_self)) fun n _ hn => ?_
    rw [← hn]
    cases op.step? acc n with
    | some acc' => exact rest acc' fun e' he' => hcode e' (List.mem_cons_of_mem e he')
    | none => exact agree_withSpan e.span (agree_fail _)

theorem agree_evalArith (op : ArithOp) {operands : List Expr}
    (hcode : ∀ e ∈ operands, P.code c e) :
    P.Agree c P.value (evalArith eval op operands) (evalArith eval' op operands) := by
  unfold evalArith
  split
  next => exact agree_fail _
  -- a single operand, which `-` negates
  next e =>
    split
    · refine agree_bind (agree_evalInt sound ih (hcode e List.mem_cons_self)) fun n _ hn => ?_
      rw [← hn]
      exact agree_pure (sound.data rfl)
    · exact agree_fail _
  next e es _ =>
    refine agree_bind (agree_evalInt sound ih (hcode e List.mem_cons_self)) fun n _ hn => ?_
    rw [← hn]
    refine agree_bind (agree_evalOperands sound ih op n
      fun e' he' => hcode e' (List.mem_cons_of_mem e he')) fun m _ hm => ?_
    -- equal integers, so both go on with the same ones
    rw [← hm]
    exact agree_pure (sound.data rfl)

theorem agree_evalPrint {args : List Expr} (hcode : ∀ e ∈ args, P.code c e) :
    P.Agree c P.value (evalPrint eval args) (evalPrint eval' args) := by
  have lines : P.Agree c P.value
      (do args.forM fun e => do printLine (← eval e).text
          return .int 0)
      (do args.forM fun e => do printLine (← eval' e).text
          return .int 0) := by
    refine agree_bind (agree_forM fun e he => ?_) fun _ _ _ => agree_pure (sound.data rfl)
    refine agree_bind (ih (hcode e he)) fun v v' hv => ?_
    rw [(sound.shape hv).text_eq]
    exact agree_printLine sound v.text
  unfold evalPrint
  split
  · exact agree_bind (agree_fail (R := fun _ _ => True) _) fun _ _ _ => lines
  · exact lines

omit sound ih in
theorem agree_target (form : Form) (e : Expr) :
    P.Agree c (fun name name' => name = name' ∧ ∃ ns, e = .ident name ns) (target form e)
      (target form e) := by
  unfold target
  cases named : e.ident? with
  | some name => exact agree_pure ⟨rfl, Expr.ident_of_ident? named⟩
  | none => exact agree_fail _

omit sound ih in
theorem agree_parameters (form : Form) (e : Expr) :
    P.Agree c (fun names names' => names = names' ∧ e.names? = some names) (parameters form e)
      (parameters form e) := by
  unfold parameters
  cases listed : e.names? with
  | some names => exact agree_pure ⟨rfl, rfl⟩
  | none => exact agree_fail _

theorem agree_evalSet {args : List Expr} (hcode : ∀ e ∈ args, P.code c e) :
    P.Agree c P.value (evalSet eval args) (evalSet eval' args) := by
  unfold evalSet
  split
  next place init =>
    refine agree_bind (agree_target .set place) fun name _ hname => ?_
    obtain ⟨rfl, ns, rfl⟩ := hname
    refine agree_bind (ih (hcode init (by simp))) fun v v' hv => ?_
    refine agree_bind (R := fun _ _ => True) (fun w w' worlds => ?_) fun _ _ _ => agree_pure hv
    refine matches_updateEnv _ worlds ?_
    exact sound.assign (hcode (.ident name ns) List.mem_cons_self) worlds hv
  next => exact agree_fail _

theorem agree_evalConst {args : List Expr} (hcode : ∀ e ∈ args, P.code c e) :
    P.Agree c P.value (evalConst eval args) (evalConst eval' args) := by
  unfold evalConst
  split
  next place init =>
    refine agree_bind (agree_target .const place) fun name _ hname => ?_
    obtain ⟨rfl, ns, rfl⟩ := hname
    refine agree_bind (ih (hcode init (by simp))) fun v v' hv => ?_
    refine agree_bind (R := fun _ _ => True) (fun w w' worlds => ?_) fun _ _ _ => agree_pure hv
    refine matches_updateEnv _ worlds ?_
    exact sound.const (hcode (.ident name ns) List.mem_cons_self) worlds hv
  next => exact agree_fail _

theorem agree_evalIf {args : List Expr} (hcode : ∀ e ∈ args, P.code c e) :
    P.Agree c P.value (evalIf eval args) (evalIf eval' args) := by
  unfold evalIf
  split
  next test yes no =>
    refine agree_bind (agree_evalCondition sound ih (hcode test (by simp))) fun b _ hb => ?_
    rw [← hb]
    cases b with
    | true => exact ih (hcode yes (by simp))
    | false => exact ih (hcode no (by simp))
  next => exact agree_fail _

theorem agree_evalNot {args : List Expr} (hcode : ∀ e ∈ args, P.code c e) :
    P.Agree c P.value (evalNot eval args) (evalNot eval' args) := by
  unfold evalNot
  split
  next e =>
    refine agree_bind (ih (hcode e (by simp))) fun v v' hv => ?_
    rw [(sound.shape hv).isTruthy_eq]
    exact agree_pure (sound.data rfl)
  next => exact agree_fail _

theorem agree_evalAnd {args : List Expr} (hcode : ∀ e ∈ args, P.code c e) :
    P.Agree c P.value (evalAnd eval args) (evalAnd eval' args) := by
  induction args with
  | nil => exact agree_pure (sound.data rfl)
  | cons e es rest =>
    unfold evalAnd
    refine agree_bind (ih (hcode e List.mem_cons_self)) fun v v' hv => ?_
    rw [(sound.shape hv).isTruthy_eq]
    split
    · exact rest fun e' he' => hcode e' (List.mem_cons_of_mem e he')
    · exact agree_pure (sound.data rfl)

theorem agree_evalOr {args : List Expr} (hcode : ∀ e ∈ args, P.code c e) :
    P.Agree c P.value (evalOr eval args) (evalOr eval' args) := by
  induction args with
  | nil => exact agree_pure (sound.data rfl)
  | cons e es rest =>
    unfold evalOr
    refine agree_bind (ih (hcode e List.mem_cons_self)) fun v v' hv => ?_
    rw [(sound.shape hv).isTruthy_eq]
    split
    · exact agree_pure (sound.data rfl)
    · exact rest fun e' he' => hcode e' (List.mem_cons_of_mem e he')

/-- By induction on the number of rounds that are left. -/
theorem agree_evalIterations (limit : Option Nat) {cond : Expr} {body : List Expr}
    (hcond : P.code c cond) (hbody : ∀ e ∈ body, P.code c e) (fuel done : Nat) :
    P.Agree c P.value (evalIterations eval limit cond body fuel done)
      (evalIterations eval' limit cond body fuel done) := by
  induction fuel generalizing done with
  | zero => exact agree_throw _
  | succ fuel rest =>
    unfold evalIterations
    refine agree_bind (agree_evalCondition sound ih hcond) fun b _ hb => ?_
    rw [← hb]
    cases b with
    | false => exact agree_pure (sound.data rfl)
    | true =>
      refine agree_bind (agree_evalBody sound ih hbody) fun _ _ _ => ?_
      -- both runs have the same limit and have come as far
      cases limit with
      | none => exact rest (done + 1)
      | some n =>
        simp only
        split
        · exact agree_fail _
        · exact rest (done + 1)

theorem agree_evalLoop (limit : Option Nat) (fuel : Nat) {args : List Expr}
    (hcode : ∀ e ∈ args, P.code c e) :
    P.Agree c P.value (evalLoop eval limit fuel args) (evalLoop eval' limit fuel args) := by
  unfold evalLoop
  split
  next cond e es =>
    exact agree_evalIterations sound ih limit (hcode cond List.mem_cons_self)
      (fun e' he' => hcode e' (List.mem_cons_of_mem cond he')) fuel 0
  next => exact agree_fail _

omit ih in
/-- Both runs define a function or neither does. -/
theorem agree_evalDefun {head : String} {hs : Span} {args : List Expr}
    (form : Form.classify head = some .defun)
    (hcode : P.code c (.list (.ident head hs :: args) span)) :
    P.Agree c P.value (evalDefun args) (evalDefun args) := by
  unfold evalDefun
  split
  next place params e es =>
    refine agree_bind (agree_target .defun place) fun name _ hname => ?_
    obtain ⟨rfl, ns, rfl⟩ := hname
    refine agree_bind (agree_parameters .defun params) fun names _ hnames => ?_
    obtain ⟨rfl, listed⟩ := hnames
    intro w w' worlds
    obtain ⟨created, together⟩ := sound.defun worlds hcode form listed
    -- the functions differ in their stamps and captures, and `defun` has said so much of both
    refine Matches.bind (R := fun _ _ => True) (matches_ok trivial created) ?_
    intro f f' u u' made made' _ _
    cases made
    cases made'
    refine (matches_updateEnv _ created together).bind fun _ _ u u' _ _ _ worlds' => ?_
    exact matches_ok (sound.data rfl) worlds'
  next => exact agree_fail _

omit ih in
theorem agree_evalLambda {head : String} {hs : Span} {args : List Expr}
    (form : Form.classify head = some .lambda)
    (hcode : P.code c (.list (.ident head hs :: args) span)) :
    P.Agree c P.value (evalLambda args) (evalLambda args) := by
  unfold evalLambda
  split
  next params e es =>
    refine agree_bind (agree_parameters .lambda params) fun names _ hnames => ?_
    obtain ⟨rfl, listed⟩ := hnames
    intro w w' worlds
    obtain ⟨made, created⟩ := sound.lambda worlds hcode form listed
    exact matches_ok made created
  next => exact agree_fail _

omit ih in
theorem agree_evalQuote (args : List Expr) :
    P.Agree c P.value (evalQuote args) (evalQuote args) := by
  unfold evalQuote
  split
  next datum => exact agree_pure (sound.data (Value.function?_quoted datum))
  next => exact agree_fail _

/-- The two functions have the same code, so the same number of arguments fits both. -/
theorem agree_invoke {f g : Closure Value} (hf : P.value (.function f) (.function g))
    {args : List Expr} (span : Span) (hcode : ∀ e ∈ args, P.code c e) :
    P.Agree c P.value (invoke eval f args span) (invoke eval' g args span) := by
  have shape := sound.shape hf
  obtain ⟨name, params, body⟩ := shape.function_eq
  have arity : g.arity = f.arity := congrArg List.length params
  have display : g.displayName = f.displayName := congrArg (·.getD "<lambda>") name
  unfold invoke
  refine agree_bind (agree_mapM fun e he => ih (hcode e he)) fun values values' hvalues => ?_
  -- from here on the two calls differ in the frames that they push
  rw [← hvalues.1.length_eq, arity, display, body]
  split
  next fits =>
    refine agree_within (pushCall_defineAll · f.captures (f.params.zip values))
      (pushCall_defineAll · g.captures (g.params.zip values')) ?_
      fun c' inner => agree_evalBody sound ih inner
    exact fun w w' worlds => sound.invoke worlds hf hvalues.1 fits
  next => exact agree_withSpan span (agree_fail _)

/-- The name stands for related values, so both calls fail or both are made. -/
theorem agree_evalNamedCall {head : String} {hs : Span} {args : List Expr} (span : Span)
    (hhead : P.code c (.ident head hs)) (hcode : ∀ e ∈ args, P.code c e) :
    P.Agree c P.value (evalNamedCall eval head args span) (evalNamedCall eval' head args span) := by
  intro w w' worlds
  rw [evalNamedCall_apply, evalNamedCall_apply]
  -- only what the name is bound to matters
  rcases rel_cases (sound.lookup hhead worlds) with
    ⟨found, found'⟩ | ⟨v, v', found, found', related⟩
  · rw [found, found']
    exact agree_withSpan span (agree_fail _) w w' worlds
  · rw [found, found']
    -- what is called is a function in both runs or in none
    cases sound.shape related with
    | data data =>
      cases v with
      | function f => cases data
      | _ => exact agree_withSpan span (agree_fail _) w w' worlds
    | function name params body => exact agree_invoke sound ih related span hcode w w' worlds

/-- Form by form: all but those that make functions only combine what their parts yield. -/
theorem agree_evalForm (limit : Option Nat) (fuel : Nat)
    {form : Form} {head : String} {hs : Span} {args : List Expr} {span : Span}
    (classified : Form.classify head = some form)
    (hcode : P.code c (.list (.ident head hs :: args) span)) :
    P.Agree c P.value (evalForm eval limit fuel form args)
      (evalForm eval' limit fuel form args) := by
  have hargs (notQuote : form ≠ .quote) (notLambda : form ≠ .lambda) (notDefun : form ≠ .defun) :
      ∀ e ∈ args, P.code c e :=
    sound.operands hcode classified notQuote notLambda notDefun
  -- only these forms have no operands that are evaluated: definitions, functions and quotations
  cases form with
  | print => exact agree_evalPrint sound ih (hargs nofun nofun nofun)
  | set => exact agree_evalSet sound ih (hargs nofun nofun nofun)
  | const => exact agree_evalConst sound ih (hargs nofun nofun nofun)
  | cond => exact agree_evalIf sound ih (hargs nofun nofun nofun)
  | not => exact agree_evalNot sound ih (hargs nofun nofun nofun)
  | and => exact agree_evalAnd sound ih (hargs nofun nofun nofun)
  | or => exact agree_evalOr sound ih (hargs nofun nofun nofun)
  | loop => exact agree_evalLoop sound ih limit fuel (hargs nofun nofun nofun)
  | defun => exact agree_evalDefun sound classified hcode
  | lambda => exact agree_evalLambda sound classified hcode
  | quote => exact agree_evalQuote sound args
  | arith op => exact agree_evalArith sound ih op (hargs nofun nofun nofun)
  | compare op => exact agree_fail _

theorem agree_evalList (limit : Option Nat) (fuel : Nat)
    {items : List Expr} {span : Span} (hcode : P.code c (.list items span)) :
    P.Agree c P.value (evalList eval limit fuel items span)
      (evalList eval' limit fuel items span) := by
  unfold evalList
  split
  next => exact agree_withSpan span (agree_fail _)
  next head args =>
    split
    next name named =>
      obtain ⟨hs, rfl⟩ := Expr.ident_of_ident? named
      split
      next form classified =>
        exact agree_withSpan span (agree_evalForm sound ih limit fuel classified hcode)
      next unclassified =>
        -- the head of a call is a variable, and code as any other
        obtain ⟨hhead, hargs⟩ := sound.call hcode unclassified
        exact agree_evalNamedCall sound ih span hhead hargs
    next unnamed =>
      obtain ⟨hhead, hargs⟩ := List.forall_mem_cons.mp (sound.indirect hcode unnamed)
      refine agree_bind (ih hhead) fun v v' related => ?_
      -- the two runs get data of the same shape, which neither can call, or functions alike
      cases sound.shape related with
      | data data =>
        cases v with
        | function f => cases data
        | _ => exact agree_withSpan span (agree_fail _)
      | function name params body => exact agree_invoke sound ih related span hargs

/-- Both runs enter a scope, with values that stand for each other. -/
theorem agree_evalLet {bindings : List (LetBinding Expr)} {body : List Expr} {span : Span}
    (hcode : P.code c (.letIn bindings body span)) :
    P.Agree c P.value (evalLet eval bindings body) (evalLet eval' bindings body) := by
  rw [evalLet_eq, evalLet_eq]
  refine agree_bind (agree_mapM fun b hb => ih (sound.inits hcode b hb))
    fun values values' hvalues => ?_
  refine agree_within (pushScope_defineAll · _) (pushScope_defineAll · _) ?_
    fun c' inner => agree_evalBody sound ih inner
  exact fun w w' worlds => sound.letIn worlds hcode hvalues.1 hvalues.2

omit ih in
theorem agree_evalVariable {name : String} {span : Span} (hcode : P.code c (.ident name span)) :
    P.Agree c P.value (evalVariable name span) (evalVariable name span) := by
  intro w w' worlds
  rcases rel_cases (sound.lookup hcode worlds) with
    ⟨found, found'⟩ | ⟨v, v', found, found', same⟩
  · rw [evalVariable_of_none found, evalVariable_of_none found']
    exact matches_error _ worlds
  · rw [evalVariable_of_some found, evalVariable_of_some found']
    exact matches_ok same worlds

/-- One layer of an expression is the same in both runs, if its parts are. -/
theorem agree_evalLayer (limit : Option Nat) (fuel : Nat)
    {e : Expr} (he : P.code c e) :
    P.Agree c P.value (evalLayer eval limit fuel e) (evalLayer eval' limit fuel e) := by
  cases e with
  | int n span => exact agree_pure (sound.data rfl)
  | str text span => exact agree_pure (sound.data rfl)
  | ident name span => exact agree_evalVariable sound he
  | quote datum style span => exact agree_pure (sound.data (Value.function?_quoted datum))
  | list items span => exact agree_evalList sound ih limit fuel he
  | letIn bindings body span => exact agree_evalLet sound ih he

omit ih in
/-- If the steps that touch the world keep to a pairing, every two evaluations do. -/
theorem agree_evalWith (config : Config) (fuel : Nat) {c : P.Scope} {e : Expr} (he : P.code c e) :
    P.Agree c P.value (evalWith config fuel e) (evalWith config fuel e) := by
  induction fuel generalizing c e with
  | zero => exact agree_throw _
  | succ fuel ih => exact agree_evalLayer sound ih config.loopLimit fuel he

end Forms

end Pairing

end Eval

end TwinLisp
