import TwinLisp.Eval.Definitions
import TwinLisp.Proofs.Expr
import TwinLisp.Proofs.Run
import TwinLisp.Proofs.Table

/-!
What evaluation keeps. A law says which code may run, which values may be at hand, what holds of
every world, how a world may become another one and where errors may be; if the few steps that
touch the world obey it, so does the evaluation of every expression, whatever its outcome.
-/

namespace TwinLisp.Eval

/-- A place can be given to each part, as the innermost one counts anyway. -/
theorem withSpan_bind {α β : Type} {act : EvalM α} {next : α → EvalM β} {span : Span} :
    withSpan span (act >>= next) = withSpan span act >>= fun a => withSpan span (next a) := by
  funext w
  cases run : act w with
  | ok a u =>
    rw [bind_of_ok (withSpan_of_ok run)]
    unfold withSpan EStateM.adaptExcept
    rw [bind_of_ok run]
  | error halt u => rw [bind_of_error (withSpan_of_error run), withSpan_of_error (bind_of_error run)]

theorem updateEnv_of_ok {change : Environment → Except Refusal Environment} {fault : Fault}
    {w : World} {env : Environment} (h : change w.env = .ok env) :
    updateEnv change fault w = .ok ⟨⟩ { w with env } := by
  unfold updateEnv
  refine (bind_of_ok rfl).trans ?_
  simp only [h]
  rfl

theorem updateEnv_of_error {change : Environment → Except Refusal Environment} {fault : Fault}
    {w : World} {refusal : Refusal} (h : change w.env = .error refusal) :
    updateEnv change fault w = .error (.failed ⟨fault, none⟩) w := by
  unfold updateEnv
  refine (bind_of_ok rfl).trans ?_
  simp only [h]
  rfl

theorem evalVariable_of_some {name : String} {span : Span} {w : World} {v : Value}
    (found : w.env.lookup name = some v) : evalVariable name span w = .ok v w := by
  unfold evalVariable
  refine (bind_of_ok rfl).trans ?_
  simp only [found]
  rfl

theorem evalVariable_of_none {name : String} {span : Span} {w : World}
    (found : w.env.lookup name = none) :
    evalVariable name span w = .error (.failed ⟨.undefinedVariable name, some span⟩) w := by
  unfold evalVariable
  refine (bind_of_ok rfl).trans ?_
  simp only [found]
  rfl

/-- What is claimed of every evaluation. -/
structure Law where
  code : Expr → Prop
  value : Value → Prop
  world : World → Prop
  step : World → World → Prop
  place : Option Span → Prop := fun _ => True

namespace Law

variable {L : Law} {α β : Type}

/-- A run from `w` has ended as the law allows, and its value is as stated if it has one. -/
def Allows (L : Law) (result : α → Prop) (w : World) : EStateM.Result Halt World α → Prop
  | .ok a u => result a ∧ L.world u ∧ L.step w u
  | .error halt u => (∀ error, halt = .failed error → L.place error.span) ∧ L.world u ∧ L.step w u

/-- The computation obeys the law, wherever it starts. -/
def Obeys (L : Law) (result : α → Prop) (act : EvalM α) : Prop :=
  ∀ w, L.world w → L.Allows result w (act w)

/-- The law for the parts of an expression: an error may still be without a place. -/
abbrev loosened (L : Law) : Law :=
  { L with place := fun span? => span? = none ∨ L.place span? }

/-- The worlds that a computation inside additional scopes starts from. -/
def inside (w : World) (scopes : List Frame) : World :=
  { w with env := { w.env with locals := scopes ++ w.env.locals } }

/-- The world after the additional scopes of `w` are left. -/
def outside (w w' : World) : World :=
  { w' with env := w'.env.truncate w.env.depth }

theorem within_of_ok {enter : Environment → Environment} {act : EvalM α} {scopes : List Frame}
    (entered : ∀ env, enter env = { env with locals := scopes ++ env.locals }) {w u : World} {a : α}
    (h : act (inside w scopes) = .ok a u) :
    within enter act w = .ok a (outside w u) := by
  unfold inside at h
  unfold within
  rw [entered, h]
  rfl

theorem within_of_error {enter : Environment → Environment} {act : EvalM α} {scopes : List Frame}
    (entered : ∀ env, enter env = { env with locals := scopes ++ env.locals }) {w u : World}
    {halt : Halt} (h : act (inside w scopes) = .error halt u) :
    within enter act w = .error halt (outside w u) := by
  unfold inside at h
  unfold within
  rw [entered, h]
  rfl

/-- The steps of evaluation that touch the world obey the law, if only admitted expressions are
evaluated. -/
structure SoundFor (L : Law) (admits : Expr → World → Prop) : Prop where
  refl : ∀ w, L.step w w
  trans : ∀ {u v w}, L.step u v → L.step v w → L.step u w
  items : ∀ {items span}, L.code (.list items span) → ∀ e ∈ items, L.code e
  inits : ∀ {bindings body span}, L.code (.letIn bindings body span) →
    ∀ b ∈ bindings, L.code b.init
  body : ∀ {bindings body span}, L.code (.letIn bindings body span) → ∀ e ∈ body, L.code e
  int : ∀ n, L.value (.int n)
  str : ∀ text, L.value (.str text)
  quoted : ∀ e, L.value (.quoted e)
  lookup : ∀ {w name v}, L.world w → w.env.lookup name = some v → L.value v
  called : ∀ {f}, L.value (.function f) →
    (∀ e ∈ f.body, L.code e) ∧ ∀ c ∈ f.captures, L.value c.2.value
  made : ∀ {w body}, L.world w → (∀ e ∈ body, L.code e) → ∀ name params,
    L.value (.function ⟨w.created, name, params, body, w.env.snapshot⟩)
  print : ∀ {w}, L.world w → ∀ line,
    L.world { w with output := w.output.println line } ∧
      L.step w { w with output := w.output.println line }
  create : ∀ {w}, L.world w →
    L.world { w with created := w.created + 1 } ∧ L.step w { w with created := w.created + 1 }
  assign : ∀ {w name v env}, L.world w → L.value v → w.env.assign name v = .ok env →
    L.world { w with env } ∧ L.step w { w with env }
  const : ∀ {w name v env}, L.world w → L.value v → w.env.defineConst name v = .ok env →
    L.world { w with env } ∧ L.step w { w with env }
  defun : ∀ {w head hs name ns rest span params body env},
    let f : Value := .function ⟨w.created, some name, params, body, w.env.snapshot⟩
    let made : World := { w with created := w.created + 1 }
    L.world w → L.world made → L.value f → Form.classify head = some .defun →
    L.code (.list (.ident head hs :: .ident name ns :: rest) span) →
    admits (.list (.ident head hs :: .ident name ns :: rest) span) w →
    w.env.defineFunction name f = .ok env → L.world { made with env } ∧ L.step made { made with env }
  enter : ∀ {w scopes}, L.world w → (∀ frame ∈ scopes, ∀ b ∈ frame, L.value b.2.value) →
    L.world (inside w scopes)
  leave : ∀ {w w' scopes}, L.world w → L.world w' → L.step (inside w scopes) w' →
    L.world (outside w w') ∧ L.step w (outside w w')
  fails : ∀ {e}, L.code e → L.place (some e.span) := by exact fun _ => trivial

abbrev Sound (L : Law) : Prop :=
  L.SoundFor fun _ _ => True

/-- What obeys a law obeys it loosened: errors with a place are not asked for more. -/
theorem Obeys.loosened {P : α → Prop} {act : EvalM α} (h : L.Obeys P act) : L.loosened.Obeys P act := by
  intro w hw
  have run := h w hw
  cases hr : act w with
  | ok a u =>
    rw [hr] at run
    exact run
  | error halt u =>
    rw [hr] at run
    exact ⟨fun error failed => .inr (run.1 error failed), run.2⟩

theorem Obeys.mono {P Q : α → Prop} {act : EvalM α} (h : L.Obeys P act)
    (weaker : ∀ a, P a → Q a) : L.Obeys Q act := by
  intro w hw
  have run := h w hw
  cases hr : act w with
  | ok a w' =>
    rw [hr] at run
    exact ⟨weaker a run.1, run.2⟩
  | error halt w' =>
    rw [hr] at run
    exact run

/-- An error without a place gets one, and any other has the one that it is allowed to have. -/
theorem Allows.withSpan {P : α → Prop} {act : EvalM α} {span : Span} {w : World}
    (here : L.place (some span)) (inner : L.loosened.Allows P w (act w)) :
    L.Allows P w (withSpan span act w) := by
  cases hr : act w with
  | ok a u =>
    rw [hr] at inner
    rw [withSpan_of_ok hr]
    exact inner
  | error halt u =>
    rw [hr] at inner
    rw [withSpan_of_error hr]
    refine ⟨fun error failed => ?_, inner.2⟩
    -- without fuel there is no error to place
    cases halt with
    | outOfFuel => cases failed
    | failed cause =>
      cases failed
      have placed := inner.1 cause rfl
      -- an error without a place gets this one, any other has a lawful place already
      obtain ⟨fault, none | inside⟩ := cause
      · exact here
      · exact placed.resolve_left nofun

/-- Where the parts may leave an error without a place, the form around them gives it one. -/
theorem obeys_withSpan {P : α → Prop} {act : EvalM α} {span : Span} (here : L.place (some span))
    (inner : L.loosened.Obeys P act) : L.Obeys P (withSpan span act) :=
  fun w hw => (inner w hw).withSpan here

variable {admits : Expr → World → Prop}

/-- The steps themselves know nothing of places, so they are sound for the loosened law. -/
theorem SoundFor.loosened (sound : L.SoundFor admits) : L.loosened.SoundFor admits :=
  { sound with fails := fun code => .inr (sound.fails code) }

variable (sound : L.SoundFor admits)

include sound

theorem obeys_pure {P : α → Prop} {a : α} (ha : P a) : L.Obeys P (pure a) := by
  intro w hw
  exact ⟨ha, hw, sound.refl w⟩

theorem obeys_outOfFuel {P : α → Prop} : L.Obeys P (throw .outOfFuel) := by
  intro w hw
  exact ⟨nofun, hw, sound.refl w⟩

theorem Allows.bind {P : α → Prop} {Q : β → Prop} {act : EvalM α} {next : α → EvalM β} {w : World}
    (first : L.Allows P w (act w))
    (rest : ∀ a u, act w = .ok a u → P a → L.world u → L.Allows Q u (next a u)) :
    L.Allows Q w ((act >>= next) w) := by
  -- an error of the first step is that of the whole
  cases hr : act w with
  | error halt u =>
    rw [hr] at first
    rw [bind_of_error hr]
    exact first
  | ok a u =>
    rw [hr] at first
    obtain ⟨ha, hu, hstep⟩ := first
    rw [bind_of_ok hr]
    have run := rest a u hr ha hu
    -- the two steps compose, on success and on error alike
    cases hr' : next a u with
    | ok b v =>
      rw [hr'] at run
      exact ⟨run.1, run.2.1, sound.trans hstep run.2.2⟩
    | error halt v =>
      rw [hr'] at run
      exact ⟨run.1, run.2.1, sound.trans hstep run.2.2⟩

/-- The law is carried through a sequence of steps. -/
theorem obeys_bind {P : α → Prop} {Q : β → Prop} {act : EvalM α} {next : α → EvalM β}
    (first : L.Obeys P act) (rest : ∀ a, P a → L.Obeys Q (next a)) :
    L.Obeys Q (act >>= next) :=
  fun w hw => (first w hw).bind sound fun a u _ ha hu => rest a ha u hu

theorem obeys_forM {f : β → EvalM PUnit} {xs : List β}
    (each : ∀ x ∈ xs, L.Obeys (fun _ => True) (f x)) : L.Obeys (fun _ => True) (xs.forM f) := by
  induction xs with
  | nil => exact obeys_pure sound trivial
  | cons x xs ih =>
    refine obeys_bind sound (each x List.mem_cons_self) fun _ _ => ?_
    exact ih fun y hy => each y (List.mem_cons_of_mem x hy)

theorem obeys_mapM {P : α → Prop} {f : β → EvalM α} {xs : List β}
    (each : ∀ x ∈ xs, L.Obeys P (f x)) : L.Obeys (fun as => ∀ a ∈ as, P a) (xs.mapM f) := by
  induction xs with
  | nil => exact obeys_pure sound (fun a ha => absurd ha List.not_mem_nil)
  | cons x xs ih =>
    rw [List.mapM_cons]
    refine obeys_bind sound (each x List.mem_cons_self) fun a ha => ?_
    refine obeys_bind sound (ih fun y hy => each y (List.mem_cons_of_mem x hy)) fun as has => ?_
    exact obeys_pure sound (List.forall_mem_cons.mpr ⟨ha, has⟩)

/-- The value that a form computes last is the one that it ends with. -/
theorem obeys_foldlM {P : α → Prop} {f : α → β → EvalM α} {xs : List β} {acc : α} (hacc : P acc)
    (each : ∀ x ∈ xs, ∀ a, P a → L.Obeys P (f a x)) : L.Obeys P (xs.foldlM f acc) := by
  induction xs generalizing acc with
  | nil => exact obeys_pure sound hacc
  | cons x xs ih =>
    rw [List.foldlM_cons]
    refine obeys_bind sound (each x List.mem_cons_self acc hacc) fun a ha => ?_
    exact ih ha fun y hy => each y (List.mem_cons_of_mem x hy)

/-- A fault is found without a place; only a law that allows for this is obeyed. -/
theorem obeys_fail {P : α → Prop} {fault : Fault} (loose : L.place none) : L.Obeys P (fail fault) := by
  intro w hw
  refine ⟨fun error failed => ?_, hw, sound.refl w⟩
  cases failed
  exact loose

/-- With its place the fault is allowed under any law that knows the place. -/
theorem obeys_fail_withSpan {P : α → Prop} {fault : Fault} {span : Span} (here : L.place (some span)) :
    L.Obeys P (withSpan span (fail fault)) :=
  obeys_withSpan here (obeys_fail sound.loosened (.inl rfl))

theorem allows_updateEnv {change : Environment → Except Refusal Environment} {fault : Fault}
    {w : World} (loose : L.place none) (hw : L.world w)
    (lawful : ∀ {env}, change w.env = .ok env → L.world { w with env } ∧ L.step w { w with env }) :
    L.Allows (fun _ => True) w (updateEnv change fault w) := by
  cases changed : change w.env with
  | ok env =>
    rw [updateEnv_of_ok changed]
    exact ⟨trivial, lawful changed⟩
  | error refusal =>
    rw [updateEnv_of_error changed]
    refine ⟨fun error failed => ?_, hw, sound.refl w⟩
    cases failed
    exact loose

theorem obeys_updateEnv {change : Environment → Except Refusal Environment} {fault : Fault}
    (loose : L.place none) (lawful : ∀ {w env}, L.world w → change w.env = .ok env →
      L.world { w with env } ∧ L.step w { w with env }) :
    L.Obeys (fun _ => True) (updateEnv change fault) :=
  fun _ hw => allows_updateEnv sound loose hw (lawful hw)

theorem obeys_printLine (line : String) : L.Obeys (fun _ => True) (printLine line) := by
  intro w hw
  exact ⟨trivial, sound.print hw line⟩

theorem obeys_makeFunction (name : Option String) (params : List String) {body : List Expr}
    (hbody : ∀ e ∈ body, L.code e) :
    L.Obeys L.value (makeFunction name params body) := by
  intro w hw
  exact ⟨sound.made hw hbody name params, sound.create hw⟩

/-- Scopes are left on success and on error. -/
theorem obeys_within {P : α → Prop} {enter : Environment → Environment} {act : EvalM α}
    {scopes : List Frame}
    (entered : ∀ env, enter env = { env with locals := scopes ++ env.locals })
    (values : ∀ frame ∈ scopes, ∀ b ∈ frame, L.value b.2.value) (inner : L.Obeys P act) :
    L.Obeys P (within enter act) := by
  intro w hw
  have run := inner (inside w scopes) (sound.enter hw values)
  -- inside and outside are related by the law itself, whichever way the body ends
  cases hr : act (inside w scopes) with
  | ok a w' =>
    rw [hr] at run
    rw [within_of_ok entered hr]
    exact ⟨run.1, sound.leave hw run.2.1 run.2.2⟩
  | error halt w' =>
    rw [hr] at run
    rw [within_of_error entered hr]
    exact ⟨run.1, sound.leave hw run.2.1 run.2.2⟩

end Law

/-- The scope that holds the pairs as variables, the last of a name counting. -/
def scopeOf (pairs : List (String × Value)) : Frame :=
  Table.insertAll [] (pairs.map fun p => (p.1, ⟨p.2, .mutable⟩))

theorem defineAll_locals (pairs : List (String × Value)) (frame : Frame) (outer : List Frame)
    (globals : Frame) :
    Environment.defineAll ⟨frame :: outer, globals⟩ pairs =
      ⟨Table.insertAll frame (pairs.map fun p => (p.1, ⟨p.2, .mutable⟩)) :: outer, globals⟩ := by
  induction pairs generalizing frame with
  | nil => rfl
  | cons pair pairs ih => exact ih (frame.insert pair.1 ⟨pair.2, .mutable⟩)

theorem pushScope_defineAll (env : Environment) (pairs : List (String × Value)) :
    env.pushScope.defineAll pairs = { env with locals := [scopeOf pairs] ++ env.locals } :=
  defineAll_locals pairs [] env.locals env.globals

theorem pushCall_defineAll (env : Environment) (captures : Frame) (pairs : List (String × Value)) :
    ((env.pushFrame captures).pushScope).defineAll pairs =
      { env with locals := [scopeOf pairs, captures] ++ env.locals } :=
  defineAll_locals pairs [] (captures :: env.locals) env.globals

/-- A scope holds no other values than those it is made of. -/
theorem mem_scopeOf {pairs : List (String × Value)} {b : String × Binding Value}
    (h : b ∈ scopeOf pairs) : ∃ p ∈ pairs, b = (p.1, ⟨p.2, .mutable⟩) := by
  rcases Table.mem_insertAll h with h | h
  · obtain ⟨p, hp, rfl⟩ := List.mem_map.mp h
    exact ⟨p, hp, rfl⟩
  · exact absurd h List.not_mem_nil

theorem entries_scopeOf (pairs : List (String × Value)) (name : String) :
    Table.entries (scopeOf pairs) name =
      (Table.entries (pairs.map fun p => (p.1, (⟨p.2, .mutable⟩ : Binding Value))) name).getLast?.toList
        := by
  unfold scopeOf
  rw [Table.entries_insertAll]
  cases (Table.entries (pairs.map fun p => (p.1, (⟨p.2, .mutable⟩ : Binding Value))) name).getLast? <;>
    rfl

/-- A call by name, by what the name stands for: it is undefined, no function, or called. -/
theorem evalNamedCall_apply (eval : Expr → EvalM Value) (name : String) (args : List Expr)
    (span : Span) (w : World) : evalNamedCall eval name args span w =
      (match w.env.lookup name with
        | some (.function f) => invoke eval f args span
        | some v => withSpan span (fail (.notCallable v.typeName))
        | none => withSpan span (fail (.undefinedFunction name))) w := by
  unfold evalNamedCall
  exact bind_of_ok rfl

namespace Law

variable {L : Law} {admits : Expr → World → Prop} (sound : L.SoundFor admits) {eval : Expr → EvalM Value}
  (ih : ∀ e, L.code e → L.Obeys L.value (eval e))

include sound ih

theorem obeys_evalBody {body : List Expr} (hbody : ∀ e ∈ body, L.code e) :
    L.Obeys L.value (evalBody eval body) :=
  obeys_foldlM sound (sound.quoted (.list [] ⟨0, 0⟩)) fun e he _ _ => ih e (hbody e he)

theorem obeys_evalInt {e : Expr} (he : L.code e) : L.Obeys (fun _ => True) (evalInt eval e) := by
  refine obeys_bind sound (ih e he) fun v _ => ?_
  cases v.toInt64 with
  | ok n => exact obeys_pure sound trivial
  | error fault => exact obeys_fail_withSpan sound (sound.fails he)

theorem obeys_evalComparison (op : CmpOp) {operands : List Expr} (loose : L.place none)
    (hcode : ∀ e ∈ operands, L.code e) :
    L.Obeys (fun _ => True) (evalComparison eval op operands) := by
  unfold evalComparison
  split
  next left right =>
    refine obeys_bind sound (obeys_evalInt sound ih (hcode left (by simp))) fun a _ => ?_
    refine obeys_bind sound (obeys_evalInt sound ih (hcode right (by simp))) fun b _ => ?_
    exact obeys_pure sound trivial
  next => exact obeys_fail sound loose

theorem obeys_evalCondition {e : Expr} (he : L.code e) :
    L.Obeys (fun _ => True) (evalCondition eval e) := by
  unfold evalCondition
  split
  next op operands comparison =>
    obtain ⟨items, span, rfl, hitems⟩ := Expr.list_of_comparison? comparison
    -- the comparison may leave an error without a place, and here it gets one
    refine obeys_withSpan (sound.fails he) ?_
    exact obeys_evalComparison sound.loosened (fun e he => (ih e he).loosened) op (.inl rfl)
      fun e mem => sound.items he e (hitems e mem)
  next => exact obeys_bind sound (ih e he) fun v _ => obeys_pure sound trivial

theorem obeys_evalOperands (op : ArithOp) (acc : Int64) {operands : List Expr}
    (hcode : ∀ e ∈ operands, L.code e) :
    L.Obeys (fun _ => True) (evalOperands eval op acc operands) := by
  induction operands generalizing acc with
  | nil => exact obeys_pure sound trivial
  | cons e es rest =>
    unfold evalOperands
    refine obeys_bind sound (obeys_evalInt sound ih (hcode e List.mem_cons_self)) fun n _ => ?_
    cases op.step? acc n with
    | some acc' => exact rest acc' fun e' he' => hcode e' (List.mem_cons_of_mem e he')
    | none => exact obeys_fail_withSpan sound (sound.fails (hcode e List.mem_cons_self))

theorem obeys_evalArith (op : ArithOp) {operands : List Expr}
    (loose : L.place none) (hcode : ∀ e ∈ operands, L.code e) :
    L.Obeys L.value (evalArith eval op operands) := by
  unfold evalArith
  split
  next => exact obeys_fail sound loose
  next e =>
    split
    · exact obeys_bind sound (obeys_evalInt sound ih (hcode e List.mem_cons_self)) fun n _ =>
        obeys_pure sound (sound.int _)
    · exact obeys_fail sound loose
  next e es _ =>
    refine obeys_bind sound (obeys_evalInt sound ih (hcode e List.mem_cons_self)) fun n _ => ?_
    refine obeys_bind sound (obeys_evalOperands sound ih op n
      fun e' he' => hcode e' (List.mem_cons_of_mem e he')) fun m _ => ?_
    exact obeys_pure sound (sound.int m)

theorem obeys_evalPrint {args : List Expr}
    (loose : L.place none) (hcode : ∀ e ∈ args, L.code e) :
    L.Obeys L.value (evalPrint eval args) := by
  -- where there are no arguments the form has failed before it comes to this
  have lines : L.Obeys L.value (do
      args.forM fun e => do printLine (← eval e).text
      return .int 0) := by
    refine obeys_bind sound (obeys_forM sound fun e he => ?_) fun _ _ =>
      obeys_pure sound (sound.int 0)
    exact obeys_bind sound (ih e (hcode e he)) fun v _ => obeys_printLine sound v.text
  unfold evalPrint
  split
  · exact obeys_bind sound (obeys_fail sound (P := fun _ => True) loose) fun _ _ => lines
  · exact lines

omit ih in
theorem obeys_target (form : Form) (e : Expr)
    (loose : L.place none) :
    L.Obeys (fun name => e.ident? = some name) (target form e) := by
  unfold target
  cases e.ident? with
  | some name => exact obeys_pure sound rfl
  | none => exact obeys_fail sound loose

omit ih in
theorem obeys_parameters (form : Form) (e : Expr)
    (loose : L.place none) :
    L.Obeys (fun _ => True) (parameters form e) := by
  unfold parameters
  cases e.names? with
  | some names => exact obeys_pure sound trivial
  | none => exact obeys_fail sound loose

theorem obeys_evalSet {args : List Expr}
    (loose : L.place none) (hcode : ∀ e ∈ args, L.code e) :
    L.Obeys L.value (evalSet eval args) := by
  unfold evalSet
  split
  next place init =>
    refine obeys_bind sound (obeys_target sound .set place loose) fun name _ => ?_
    refine obeys_bind sound (ih init (hcode init (by simp))) fun v hv => ?_
    -- the environment is that after the value
    refine obeys_bind sound (obeys_updateEnv sound loose
      fun hw changed => sound.assign hw hv changed) fun _ _ => ?_
    exact obeys_pure sound hv
  next => exact obeys_fail sound loose

theorem obeys_evalConst {args : List Expr}
    (loose : L.place none) (hcode : ∀ e ∈ args, L.code e) :
    L.Obeys L.value (evalConst eval args) := by
  unfold evalConst
  split
  next place init =>
    refine obeys_bind sound (obeys_target sound .const place loose) fun name _ => ?_
    refine obeys_bind sound (ih init (hcode init (by simp))) fun v hv => ?_
    refine obeys_bind sound (obeys_updateEnv sound loose
      fun hw changed => sound.const hw hv changed) fun _ _ => ?_
    exact obeys_pure sound hv
  next => exact obeys_fail sound loose

theorem obeys_evalIf {args : List Expr}
    (loose : L.place none) (hcode : ∀ e ∈ args, L.code e) :
    L.Obeys L.value (evalIf eval args) := by
  unfold evalIf
  split
  next test yes no =>
    refine obeys_bind sound (obeys_evalCondition sound ih (hcode test (by simp))) fun b _ => ?_
    cases b with
    | true => exact ih yes (hcode yes (by simp))
    | false => exact ih no (hcode no (by simp))
  next => exact obeys_fail sound loose

theorem obeys_evalNot {args : List Expr}
    (loose : L.place none) (hcode : ∀ e ∈ args, L.code e) :
    L.Obeys L.value (evalNot eval args) := by
  unfold evalNot
  split
  next e =>
    exact obeys_bind sound (ih e (hcode e (by simp))) fun v _ => obeys_pure sound (sound.int _)
  next => exact obeys_fail sound loose

theorem obeys_evalAnd {args : List Expr} (hcode : ∀ e ∈ args, L.code e) :
    L.Obeys L.value (evalAnd eval args) := by
  induction args with
  | nil => exact obeys_pure sound (sound.int _)
  | cons e es rest =>
    unfold evalAnd
    refine obeys_bind sound (ih e (hcode e List.mem_cons_self)) fun v _ => ?_
    split
    · exact rest fun e' he' => hcode e' (List.mem_cons_of_mem e he')
    · exact obeys_pure sound (sound.int _)

theorem obeys_evalOr {args : List Expr} (hcode : ∀ e ∈ args, L.code e) :
    L.Obeys L.value (evalOr eval args) := by
  induction args with
  | nil => exact obeys_pure sound (sound.int _)
  | cons e es rest =>
    unfold evalOr
    refine obeys_bind sound (ih e (hcode e List.mem_cons_self)) fun v _ => ?_
    split
    · exact obeys_pure sound (sound.int _)
    · exact rest fun e' he' => hcode e' (List.mem_cons_of_mem e he')

/-- By induction on the number of rounds that are left. -/
theorem obeys_evalIterations (limit : Option Nat) {cond : Expr} {body : List Expr}
    (loose : L.place none) (hcond : L.code cond)
    (hbody : ∀ e ∈ body, L.code e) (fuel done : Nat) :
    L.Obeys L.value (evalIterations eval limit cond body fuel done) := by
  induction fuel generalizing done with
  | zero => exact obeys_outOfFuel sound
  | succ fuel rest =>
    unfold evalIterations
    refine obeys_bind sound (obeys_evalCondition sound ih hcond) fun b _ => ?_
    cases b with
    | false => exact obeys_pure sound (sound.int 0)
    | true =>
      refine obeys_bind sound (obeys_evalBody sound ih hbody) fun _ _ => ?_
      -- after the body the limit is looked at, if there is one
      cases limit with
      | none => exact rest (done + 1)
      | some n =>
        simp only
        split
        · exact obeys_fail sound loose
        · exact rest (done + 1)

theorem obeys_evalLoop (limit : Option Nat) (fuel : Nat) {args : List Expr}
    (loose : L.place none) (hcode : ∀ e ∈ args, L.code e) :
    L.Obeys L.value (evalLoop eval limit fuel args) := by
  unfold evalLoop
  split
  next cond e es =>
    exact obeys_evalIterations sound ih limit loose (hcode cond List.mem_cons_self)
      (fun e' he' => hcode e' (List.mem_cons_of_mem cond he')) fuel 0
  next => exact obeys_fail sound loose

omit ih in
/-- The only step that the law is told more of: what is defined, and in which world. -/
theorem allows_evalDefun {head : String} {hs : Span} {args : List Expr} {span : Span} {w : World}
    (loose : L.place none) (form : Form.classify head = some .defun)
    (hcode : L.code (.list (.ident head hs :: args) span)) (hw : L.world w)
    (admitted : admits (.list (.ident head hs :: args) span) w) :
    L.Allows L.value w (evalDefun args w) := by
  unfold evalDefun
  split
  next place params e es =>
    -- neither the name nor the parameters touch the world, so it is still `w` behind them
    refine (obeys_target sound .defun place loose w hw).bind sound fun name _ named hname _ => ?_
    obtain ⟨ns, rfl⟩ := Expr.ident_of_ident? hname
    cases named
    cases listed : params.names? with
    | none =>
      unfold parameters
      simp only [listed]
      exact (obeys_fail (P := L.value) sound loose) w hw
    | some names =>
      unfold parameters
      simp only [listed, pure_bind]
      have hbody : ∀ e' ∈ e :: es, L.code e' := fun e' he' =>
        sound.items hcode e' (.tail _ (.tail _ (.tail _ he')))
      refine (obeys_makeFunction sound _ _ hbody w hw).bind sound fun f _ made hf hmade => ?_
      cases made
      refine (allows_updateEnv sound loose hmade fun changed => ?_).bind sound fun _ u _ _ hu => ?_
      · exact sound.defun hw hmade hf form hcode admitted changed
      · exact obeys_pure sound (sound.int 0) u hu
  next => exact (obeys_fail (P := L.value) sound loose) w hw

omit ih in
theorem obeys_evalLambda {args : List Expr}
    (loose : L.place none) (hcode : ∀ e ∈ args, L.code e) :
    L.Obeys L.value (evalLambda args) := by
  unfold evalLambda
  split
  next params e es =>
    refine obeys_bind sound (obeys_parameters sound .lambda params loose) fun names _ => ?_
    exact obeys_makeFunction sound _ _ fun e' he' => hcode e' (List.mem_cons_of_mem params he')
  next => exact obeys_fail sound loose

omit ih in
theorem obeys_evalQuote (args : List Expr)
    (loose : L.place none) :
    L.Obeys L.value (evalQuote args) := by
  unfold evalQuote
  split
  next datum => exact obeys_pure sound (sound.quoted datum)
  next => exact obeys_fail sound loose

/-- The arguments are evaluated outside the scopes of the call, the body inside them. -/
theorem obeys_invoke {f : Closure Value} (hf : L.value (.function f)) {args : List Expr} {span : Span}
    (here : L.place (some span)) (hcode : ∀ e ∈ args, L.code e) :
    L.Obeys L.value (invoke eval f args span) := by
  obtain ⟨hbody, hcaptures⟩ := sound.called hf
  unfold invoke
  refine obeys_bind sound (obeys_mapM sound fun e he => ih e (hcode e he)) fun values hvalues => ?_
  split
  · refine obeys_within sound (pushCall_defineAll · f.captures (f.params.zip values)) ?_
      (obeys_evalBody sound ih hbody)
    intro frame hframe b hb
    -- the frames of a call hold the arguments and what the function has captured
    rcases List.mem_cons.mp hframe with rfl | hframe
    · obtain ⟨p, hp, rfl⟩ := mem_scopeOf hb
      exact hvalues p.2 (List.of_mem_zip hp).2
    · rw [List.mem_singleton.mp hframe] at hb
      exact hcaptures b hb
  · exact obeys_fail_withSpan sound here

/-- What a name stands for is at hand, and if that is a function, its code may be run. -/
theorem obeys_evalNamedCall (name : String) {args : List Expr} {span : Span}
    (here : L.place (some span)) (hcode : ∀ e ∈ args, L.code e) :
    L.Obeys L.value (evalNamedCall eval name args span) := by
  intro w hw
  rw [evalNamedCall_apply]
  cases found : w.env.lookup name with
  | none => exact obeys_fail_withSpan (P := L.value) sound here w hw
  | some v =>
    -- a name may be bound to what is no function
    cases v with
    | function f => exact obeys_invoke sound ih (sound.lookup hw found) here hcode w hw
    | _ => exact obeys_fail_withSpan (P := L.value) sound here w hw

theorem allows_evalForm (limit : Option Nat) (fuel : Nat) {form : Form} {head : String} {hs : Span}
    {args : List Expr} {span : Span} {w : World} (loose : L.place none)
    (classified : Form.classify head = some form)
    (hcode : L.code (.list (.ident head hs :: args) span)) (hw : L.world w)
    (admitted : admits (.list (.ident head hs :: args) span) w) :
    L.Allows L.value w (evalForm eval limit fuel form args w) := by
  have hargs : ∀ e ∈ args, L.code e := fun e he => sound.items hcode e (List.mem_cons_of_mem _ he)
  -- of all forms `defun` alone asks whether it is admitted
  cases form with
  | print => exact obeys_evalPrint sound ih loose hargs w hw
  | set => exact obeys_evalSet sound ih loose hargs w hw
  | const => exact obeys_evalConst sound ih loose hargs w hw
  | cond => exact obeys_evalIf sound ih loose hargs w hw
  | not => exact obeys_evalNot sound ih loose hargs w hw
  | and => exact obeys_evalAnd sound ih hargs w hw
  | or => exact obeys_evalOr sound ih hargs w hw
  | loop => exact obeys_evalLoop sound ih limit fuel loose hargs w hw
  | defun => exact allows_evalDefun sound loose classified hcode hw admitted
  | lambda => exact obeys_evalLambda sound loose hargs w hw
  | quote => exact obeys_evalQuote sound args loose w hw
  | arith op => exact obeys_evalArith sound ih op loose hargs w hw
  | compare op => exact obeys_fail (P := L.value) sound loose w hw

/-- A form may leave its errors without a place; the list that it is written as has one for them. -/
theorem allows_evalList (limit : Option Nat) (fuel : Nat) {items : List Expr} {span : Span} {w : World}
    (hcode : L.code (.list items span)) (hw : L.world w) (admitted : admits (.list items span) w) :
    L.Allows L.value w (evalList eval limit fuel items span w) := by
  have here : L.place (some span) := sound.fails hcode
  unfold evalList
  cases items with
  | nil => exact obeys_fail_withSpan (P := L.value) sound here w hw
  | cons head args =>
    have hargs : ∀ e ∈ args, L.code e :=
      fun e he => sound.items hcode e (List.mem_cons_of_mem _ he)
    cases named : head.ident? with
    | some name =>
      obtain ⟨hs, rfl⟩ := Expr.ident_of_ident? named
      cases classified : Form.classify name with
      | some form =>
        simp only [named, classified]
        -- the parts of the form are evaluated under the loosened law, its own place makes up for it
        have inner := allows_evalForm sound.loosened (fun e he => (ih e he).loosened) limit fuel
          (.inl rfl) classified hcode hw admitted
        exact inner.withSpan here
      | none =>
        simp only [named, classified]
        exact obeys_evalNamedCall sound ih name here hargs w hw
    | none =>
      simp only [named]
      refine obeys_bind sound (ih head (sound.items hcode head List.mem_cons_self)) (fun v hv => ?_) w hw
      split
      next f => exact obeys_invoke sound ih hv here hargs
      next => exact obeys_fail_withSpan sound here

/-- The scope holds what the initial values are, and these are lawful. -/
theorem obeys_evalLet {bindings : List (LetBinding Expr)} {body : List Expr} {span : Span}
    (hcode : L.code (.letIn bindings body span)) : L.Obeys L.value (evalLet eval bindings body) := by
  unfold evalLet
  refine obeys_bind sound (obeys_mapM sound (P := fun p : String × Value => L.value p.2)
    fun b hb => ?_) fun pairs hpairs => ?_
  · exact obeys_bind sound (ih b.init (sound.inits hcode b hb)) fun v hv => obeys_pure sound hv
  · -- the scope is entered with the values, which have been evaluated outside it
    refine obeys_within sound (pushScope_defineAll · pairs) ?_
      (obeys_evalBody sound ih (sound.body hcode))
    intro frame hframe b hb
    rw [List.mem_singleton.mp hframe] at hb
    obtain ⟨p, hp, rfl⟩ := mem_scopeOf hb
    exact hpairs p hp

omit ih in
theorem obeys_evalVariable (name : String) {span : Span}
    (here : L.place (some span)) :
    L.Obeys L.value (evalVariable name span) := by
  intro w hw
  cases found : w.env.lookup name with
  | some v =>
    rw [evalVariable_of_some found]
    exact ⟨sound.lookup hw found, hw, sound.refl w⟩
  | none =>
    rw [evalVariable_of_none found]
    refine ⟨fun error failed => ?_, hw, sound.refl w⟩
    cases failed
    exact here

/-- One layer obeys the law if its parts do, and if the layer itself is admitted. -/
theorem allows_evalLayer (limit : Option Nat) (fuel : Nat) {e : Expr} {w : World} (he : L.code e)
    (hw : L.world w) (admitted : admits e w) :
    L.Allows L.value w (evalLayer eval limit fuel e w) := by
  cases e with
  | int n span => exact obeys_pure sound (sound.int n) w hw
  | str text span => exact obeys_pure sound (sound.str text) w hw
  | ident name span => exact obeys_evalVariable sound name (sound.fails he) w hw
  | quote datum style span => exact obeys_pure sound (sound.quoted datum) w hw
  | list items span => exact allows_evalList sound ih limit fuel he hw admitted
  | letIn bindings body span => exact obeys_evalLet sound ih he w hw

omit ih in
/-- An evaluation that stops at what is not admitted. -/
theorem obeys_evalUpTo {stop : Expr → World → Bool} (config : Config) (fuel : Nat)
    (passes : ∀ e w, stop e w = false → admits e w) {e : Expr} (he : L.code e) :
    L.Obeys L.value (evalUpTo stop config fuel e) := by
  induction fuel generalizing e with
  | zero => exact obeys_outOfFuel sound
  | succ fuel ih =>
    intro w hw
    unfold evalUpTo
    -- a run that stops there is out of fuel, which the law always allows
    rw [bind_of_ok (x := get) rfl]
    split
    · exact obeys_outOfFuel sound w hw
    next passed =>
      exact allows_evalLayer sound (fun e he => ih he) config.loopLimit fuel he hw
        (passes e w (Bool.eq_false_iff.mpr passed))

omit sound ih in
/-- If the steps that touch the world obey a law, every evaluation does. -/
theorem obeys_evalWith (sound : L.Sound) (config : Config) (fuel : Nat) {e : Expr} (he : L.code e) :
    L.Obeys L.value (evalWith config fuel e) := by
  induction fuel generalizing e with
  | zero => exact obeys_outOfFuel sound
  | succ fuel ih =>
    exact fun w hw => allows_evalLayer sound (fun e he => ih he) config.loopLimit fuel he hw trivial

end Law

/-- The world that a computation leaves, whether it yields a value or an error. -/
def after {α : Type} (act : EvalM α) (w : World) : World :=
  match act w with
  | .ok _ w' => w'
  | .error _ w' => w'

theorem after_of_ok {α : Type} {act : EvalM α} {w u : World} {a : α} (run : act w = .ok a u) :
    after act w = u := by
  unfold after
  rw [run]

theorem after_of_error {α : Type} {act : EvalM α} {w u : World} {halt : Halt}
    (run : act w = .error halt u) : after act w = u := by
  unfold after
  rw [run]

theorem after_bind_of_ok {α β : Type} {act : EvalM α} {next : α → EvalM β} {w u : World} {a : α}
    (run : act w = .ok a u) : after (act >>= next) w = after (next a) u := by
  unfold after
  rw [bind_of_ok run]

theorem step_after {L : Law} {α : Type} {P : α → Prop} {act : EvalM α} {w : World}
    (obeys : L.Obeys P act) (hw : L.world w) : L.step w (after act w) := by
  have run := obeys w hw
  cases hr : act w with
  | ok a w' =>
    rw [hr] at run
    rw [after_of_ok hr]
    exact run.2.2
  | error halt w' =>
    rw [hr] at run
    rw [after_of_error hr]
    exact run.2.2

end TwinLisp.Eval
