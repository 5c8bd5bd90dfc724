import TwinLisp.Form
import TwinLisp.Table

/-!
Definite assignment: which variables have a value, whatever way control takes. It follows the scopes
of the source: a variable is known from the expression that introduces it on, also where control may
have gone past that expression.
-/

namespace TwinLisp.Graph

/-- The variables of a unit, numbered as they are introduced: `locals` are the scopes that have been
entered, innermost first, `base` is that of the whole unit, and `sure` have a value by now. -/
structure Variables where
  count : Nat := 0
  locals : List (Table Nat) := []
  base : Table Nat := []
  sure : List Nat := []

namespace Variables

def find? (w : Variables) (name : String) : Option Nat :=
  (w.locals.findSome? (·.get? name)).or (w.base.get? name)

def declareOuter (w : Variables) (name : String) : Variables :=
  { w with count := w.count + 1, base := w.base.insert name w.count, sure := w.count :: w.sure }

def declareInner (w : Variables) (name : String) : Variables :=
  match w.locals with
  | [] => w.declareOuter name
  | scope :: outer =>
    { w with
      count := w.count + 1
      locals := scope.insert name w.count :: outer
      sure := w.count :: w.sure }

/-- Sets a variable; an unknown one belongs to the whole unit. -/
def assign (w : Variables) (name : String) : Variables :=
  match w.find? name with
  | some v => { w with sure := v :: w.sure }
  | none => w.declareOuter name

def enter (w : Variables) (names : List String) : Variables :=
  names.foldl declareInner { w with locals := [] :: w.locals }

def leave (w : Variables) : Variables :=
  { w with locals := w.locals.tail }

def ofParams (params : List String) : Variables :=
  params.foldl declareInner {}

/-- Where two ways meet, what is sure on both is. -/
def meet (w : Variables) (sure : List Nat) : Variables :=
  { w with sure := w.sure.filter (sure.contains ·) }

mutual

/-- The variables after an expression, or `none` where it may read one that has no value. An arm of
`if`, an operand of `and` or `or` after the first and the body of `while` may be left out. -/
def after? (w : Variables) : Expr → Option Variables
  | .ident name _ => if (w.find? name).any (w.sure.contains ·) then some w else none
  | .list (.ident head _ :: args) _ =>
    match Form.classify head with
    | some .set =>
      match args with
      | [.ident name _, init] => do
        let w ← w.after? init
        return w.assign name
      | _ => none
    | some .const =>
      match args with
      | [.ident name _, init] => do
        let w ← w.after? init
        return w.declareInner name
      | _ => none
    | some .cond =>
      match args with
      | [test, yes, no] => do
        let w ← w.after? test
        let first ← w.after? yes
        -- what the first arm introduces is in scope, but it has not been given a value here
        let second ← { first with sure := w.sure }.after? no
        return second.meet first.sure
      | _ => none
    | some .and | some .or =>
      match args with
      | [] => some w
      | e :: es => do
        let w ← w.after? e
        -- only the first operand is sure to be run
        let rest ← w.afterAll? es
        return { rest with sure := w.sure }
    | some .loop =>
      match args with
      | test :: body => do
        let w ← w.after? test
        -- the condition is run at least once, the body perhaps never
        let rest ← w.afterAll? body
        return { rest with sure := w.sure }
      | [] => none
    | some .defun =>
      match args with
      | _ :: params :: body => do
        let names ← params.names?
        -- the body is a unit of its own, which starts with its parameters alone
        let _ ← (ofParams names).afterAll? body
        return w
      | _ => none
    | some .lambda | some .quote => some w
    | _ => w.afterAll? args
  | .letIn bindings body _ => do
    let w ← w.afterBindings? bindings
    let inner ← (w.enter (bindings.map (·.name))).afterAll? body
    return inner.leave
  | _ => some w

def afterAll? (w : Variables) : List Expr → Option Variables
  | [] => some w
  | e :: es => do
    let w ← w.after? e
    w.afterAll? es

def afterBindings? (w : Variables) : List (LetBinding Expr) → Option Variables
  | [] => some w
  | ⟨_, init, _⟩ :: bs => do
    let w ← w.after? init
    w.afterBindings? bs

end

attribute [local simp] after?

variable {w w' : Variables} {head name : String} {hs ns span : Span}

theorem after?_ident : w.after? (.ident name span) = some w' ↔
    (∃ v, w.find? name = some v ∧ v ∈ w.sure) ∧ w = w' := by
  rw [after?, Option.ite_none_right_eq_some, Option.any_eq_true, Option.some_inj]
  simp only [List.contains_iff_mem]

theorem after?_letIn {bindings : List (LetBinding Expr)} {body : List Expr} :
    w.after? (.letIn bindings body span) = some w' ↔
      ∃ w₁ inner, w.afterBindings? bindings = some w₁ ∧
        (w₁.enter (bindings.map (·.name))).afterAll? body = some inner ∧ inner.leave = w' := by
  rw [after?]
  refine Option.bind_eq_some_iff.trans (exists_congr fun _ => ?_)
  rw [exists_and_left]
  refine and_congr_right' (Option.bind_eq_some_iff.trans (exists_congr fun _ => ?_))
  exact and_congr_right' Option.some_inj

theorem after?_set {init : Expr} (form : Form.classify head = some .set) :
    w.after? (.list [.ident head hs, .ident name ns, init] span) = some w' ↔
      ∃ w₁, w.after? init = some w₁ ∧ w₁.assign name = w' := by
  rw [after?, form]
  exact Option.bind_eq_some_iff.trans (exists_congr fun _ => and_congr_right' Option.some_inj)

theorem after?_const {init : Expr} (form : Form.classify head = some .const) :
    w.after? (.list [.ident head hs, .ident name ns, init] span) = some w' ↔
      ∃ w₁, w.after? init = some w₁ ∧ w₁.declareInner name = w' := by
  rw [after?, form]
  exact Option.bind_eq_some_iff.trans (exists_congr fun _ => and_congr_right' Option.some_inj)

theorem after?_cond {test yes no : Expr} (form : Form.classify head = some .cond) :
    w.after? (.list [.ident head hs, test, yes, no] span) = some w' ↔
      ∃ w₁ first second, w.after? test = some w₁ ∧ w₁.after? yes = some first ∧
        { first with sure := w₁.sure }.after? no = some second ∧
        second.meet first.sure = w' := by
  conv => lhs; unfold after?
  rw [form]
  refine Option.bind_eq_some_iff.trans (exists_congr fun _ => ?_)
  simp only [exists_and_left]
  refine and_congr_right' (Option.bind_eq_some_iff.trans (exists_congr fun _ => ?_))
  refine and_congr_right' (Option.bind_eq_some_iff.trans (exists_congr fun _ => ?_))
  exact and_congr_right' Option.some_inj

theorem after?_logicEmpty {decides : Bool}
    (form : Form.classify head = some (if decides then .or else .and)) :
    w.after? (.list [.ident head hs] span) = some w' ↔ w = w' := by
  cases decides <;> simp [form]

theorem after?_logic {decides : Bool} {e : Expr} {es : List Expr}
    (form : Form.classify head = some (if decides then .or else .and)) :
    w.after? (.list (.ident head hs :: e :: es) span) = some w' ↔
      ∃ w₁ rest, w.after? e = some w₁ ∧ w₁.afterAll? es = some rest ∧
        { rest with sure := w₁.sure } = w' := by
  cases decides
  all_goals
    conv => lhs; unfold after?
    rw [form]
    refine Option.bind_eq_some_iff.trans (exists_congr fun _ => ?_)
    rw [exists_and_left]
    refine and_congr_right' (Option.bind_eq_some_iff.trans (exists_congr fun _ => ?_))
    exact and_congr_right' Option.some_inj

theorem after?_loop {test : Expr} {body : List Expr} (form : Form.classify head = some .loop) :
    w.after? (.list (.ident head hs :: test :: body) span) = some w' ↔
      ∃ w₁ rest, w.after? test = some w₁ ∧ w₁.afterAll? body = some rest ∧
        { rest with sure := w₁.sure } = w' := by
  conv => lhs; unfold after?
  rw [form]
  refine Option.bind_eq_some_iff.trans (exists_congr fun _ => ?_)
  rw [exists_and_left]
  refine and_congr_right' (Option.bind_eq_some_iff.trans (exists_congr fun _ => ?_))
  exact and_congr_right' Option.some_inj

theorem after?_defun {place params : Expr} {body : List Expr}
    (form : Form.classify head = some .defun) :
    w.after? (.list (.ident head hs :: place :: params :: body) span) = some w' ↔
      ∃ names inner, params.names? = some names ∧ (ofParams names).afterAll? body = some inner ∧
        w = w' := by
  conv => lhs; unfold after?
  rw [form]
  refine Option.bind_eq_some_iff.trans (exists_congr fun _ => ?_)
  rw [exists_and_left]
  refine and_congr_right' (Option.bind_eq_some_iff.trans (exists_congr fun _ => ?_))
  exact and_congr_right' Option.some_inj

theorem after?_lambda {args : List Expr} (form : Form.classify head = some .lambda) :
    w.after? (.list (.ident head hs :: args) span) = some w' ↔ w = w' := by
  conv => lhs; unfold after?
  rw [form]
  exact Option.some_inj

/-- The operands of most forms, and the arguments of a call, are run in order. -/
theorem after?_plain {args : List Expr}
    (plain : ∀ form, Form.classify head = some form →
      form = .print ∨ form = .not ∨ (∃ op, form = .arith op) ∨ ∃ op, form = .compare op) :
    w.after? (.list (.ident head hs :: args) span) = w.afterAll? args := by
  conv => lhs; unfold after?
  cases found : Form.classify head with
  | none => rfl
  | some form =>
    obtain rfl | rfl | ⟨op, rfl⟩ | ⟨op, rfl⟩ := plain form found <;> rfl

theorem afterAll?_cons {e : Expr} {es : List Expr} : w.afterAll? (e :: es) = some w' ↔
    ∃ w₁, w.after? e = some w₁ ∧ w₁.afterAll? es = some w' := by
  rw [afterAll?]
  exact Option.bind_eq_some_iff

theorem afterBindings?_eq (bindings : List (LetBinding Expr)) :
    w.afterBindings? bindings = w.afterAll? (bindings.map (·.init)) := by
  induction bindings generalizing w with
  | nil => rfl
  | cons b bindings ih =>
    rw [afterBindings?, List.map_cons, afterAll?]
    exact congrArg _ (funext fun _ => ih)

end Variables

/-- A program reads variables only where they have a value, whatever way control takes. -/
def DefinitelyAssigned (program : List Expr) : Prop :=
  (({} : Variables).afterAll? program).isSome

end TwinLisp.Graph
