import Mathlib.Logic.Relation
import TwinLisp.Form

/-!
Where the code of a program stands, and the programs in which it can be seen there what each name
stands for: functions are defined at the top level, they change only variables of their own, and a
constant is there as soon as its scope has come past it.
-/

namespace TwinLisp

/-- Where code stands: whether that is in the body of a function, whether it runs whenever the `let`
body, function body or program does that is nearest around it, and which variables are bound there by
parameters, by `let` forms and by earlier constants. -/
structure Place where
  inFunction : Bool
  unconditional : Bool
  bound : List String

namespace Place

/-- Outside every form. -/
def top : Place := ⟨false, true, []⟩

/-- Behind code that binds more names. -/
def binding (p : Place) (names : List String) : Place :=
  { p with bound := p.bound ++ names }

/-- Among the operands of a form that may branch. -/
def under (p : Place) (branches : Bool) : Place :=
  { p with unconditional := p.unconditional && !branches }

def inLet (p : Place) (names : List String) : Place :=
  { p.binding names with unconditional := true }

def function (params : List String) : Place := ⟨true, true, params⟩

end Place

namespace Form

/-- The form decides which of its parts run, or how often. -/
def branches : Form → Bool
  | cond | and | or | loop => true
  | _ => false

/-- The parts of the form are code, which runs where the form stands. -/
def hasOperands : Form → Bool
  | defun | lambda | quote => false
  | _ => true

end Form

namespace Expr

def form? : Expr → Option Form
  | .list (.ident head _ :: _) _ => Form.classify head
  | _ => none

/-- The name of a constant, a variable or a function that a form introduces or changes. -/
def target? (form : Form) : Expr → Option String
  | .list (.ident head _ :: .ident name _ :: _) _ =>
    if Form.classify head = some form then some name else none
  | _ => none

def params : Expr → List String
  | .list (.ident head _ :: _ :: place :: _) _ =>
    if Form.classify head = some .defun then place.names?.getD [] else []
  | _ => []

/-- The names that an expression makes variables of, apart from its parts. -/
def variableNames : Expr → List String
  | .letIn bindings _ _ => bindings.map (·.name)
  | e => (e.target? .set).toList ++ (e.target? .const).toList ++ e.params

mutual

/-- The constants that an expression defines in the scope in which it stands. -/
def consts : Expr → List String
  | .list (.ident head _ :: args) _ =>
    match Form.classify head with
    -- the initial value comes first: it may define constants of its own
    | some .const => constsAll args ++ (args.head?.bind ident?).toList
    | some .defun | some .lambda | some .quote => []
    | _ => constsAll args
  | .letIn bindings _ _ => constsOfBindings bindings
  | _ => []

def constsAll : List Expr → List String
  | [] => []
  | e :: es => consts e ++ constsAll es

def constsOfBindings : List (LetBinding Expr) → List String
  | [] => []
  | ⟨_, init, _⟩ :: bs => consts init ++ constsOfBindings bs

end

end Expr

/-- An expression, and where it stands. -/
abbrev Placed := Place × Expr

open TwinLisp.Expr in
/-- `Part c c'`: the code `c'` is a direct part of the code `c`. -/
inductive Part : Placed → Placed → Prop
  | operand {p head hs before e after span form} (classified : Form.classify head = some form)
    (operands : form.hasOperands) :
    Part (p, .list (.ident head hs :: before ++ e :: after) span)
      ((p.under form.branches).binding (constsAll before), e)
  | argument {p head hs before e after span} (noForm : Form.classify head = none) :
    Part (p, .list (.ident head hs :: before ++ e :: after) span)
      (p.binding (constsAll before), e)
  | init {p before b after body span} :
    Part (p, .letIn (before ++ b :: after) body span)
      (p.binding (constsOfBindings before), b.init)
  | inner {p bindings before e after span} :
    Part (p, .letIn bindings (before ++ e :: after) span)
      ((p.binding (constsOfBindings bindings)).inLet
        (bindings.map (·.name) ++ constsAll before), e)
  | body {p head hs name ns place params before e after span}
    (form : Form.classify head = some .defun) (listed : place.names? = some params) :
    Part (p, .list (.ident head hs :: .ident name ns :: place :: before ++ e :: after) span)
      ((Place.function params).binding (constsAll before), e)

/-- The code is a part of the code, in any depth, or that code itself. -/
def Contains : Placed → Placed → Prop := Relation.ReflTransGen Part

/-- The code is a part of the code, in any depth. -/
def ContainsWithin : Placed → Placed → Prop := Relation.TransGen Part

namespace Expr

mutual

/-- All the code that code contains, itself first, and where it stands. -/
def places (p : Place) : Expr → List Placed
  | .list (.ident head hs :: args) span =>
    (p, .list (.ident head hs :: args) span) ::
      match Form.classify head with
      | some .defun => placesOfDefun args
      | some form => if form.hasOperands then placesAll (p.under form.branches) args else []
      | none => placesAll p args
  | .letIn bindings body span =>
    (p, .letIn bindings body span) :: (placesOfBindings p bindings ++
      placesAll ((p.binding (constsOfBindings bindings)).inLet (bindings.map (·.name))) body)
  | e => [(p, e)]

def placesOfDefun : List Expr → List Placed
  | .ident _ _ :: place :: body =>
    match place.names? with
    | some params => placesAll (.function params) body
    | none => []
  | _ => []

def placesAll (p : Place) : List Expr → List Placed
  | [] => []
  | e :: es => places p e ++ placesAll (p.binding (consts e)) es

def placesOfBindings (p : Place) : List (LetBinding Expr) → List Placed
  | [] => []
  | ⟨_, init, _⟩ :: bs => places p init ++ placesOfBindings (p.binding (consts init)) bs

end

end Expr

/-- Whatever runs, a program of this kind can tell from its text what its names stand for. -/
structure StaticallyScoped (program : List Expr) : Prop where
  /-- There are no functions without a name, and functions are defined at the top level. -/
  functions : ∀ root ∈ program, ∀ p e,
    (Contains (.top, root) (p, e) → e.form? ≠ some .lambda) ∧
      (ContainsWithin (.top, root) (p, e) → e.form? ≠ some .defun)
  /-- No name is that of a function and of a variable, and `nil` is no variable. -/
  names : ∀ root ∈ program, ∀ p e, Contains (.top, root) (p, e) → ∀ x ∈ e.variableNames,
    x ≠ "nil" ∧ ∀ other ∈ program, other.target? .defun ≠ some x
  /-- What a function changes is its own. -/
  sets : ∀ root ∈ program, ∀ p e, Contains (.top, root) (p, e) → ∀ x, e.target? .set = some x →
    p.inFunction → x ∈ p.bound
  /-- Constants are defined wherever their scope is run through. -/
  consts : ∀ root ∈ program, ∀ p e, Contains (.top, root) (p, e) → e.form? = some .const →
    p.unconditional

end TwinLisp
