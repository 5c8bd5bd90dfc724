import TwinLisp.Eval.Forms

/-!
Functions that bring all they need along: the names that occur free in their body are parameters or
captured, and so are those of the functions they have captured.
-/

namespace TwinLisp

namespace Expr

def binders (params : Expr) : List String :=
  (params.items?.getD []).filterMap ident?

/-- A name occurs free in an expression, as a variable, as a target or as what is called. Keywords
at the head of a list do not count, nor does quoted data. -/
inductive Free (name : String) : Expr → Prop
  | ident {span} : Free name (.ident name span)
  | operand {head hs args span form e} (classified : Form.classify head = some form)
    (notQuote : form ≠ .quote) (notLambda : form ≠ .lambda) (mem : e ∈ args) (free : Free name e) :
    Free name (.list (.ident head hs :: args) span)
  | lambda {head hs params body span e} (classified : Form.classify head = some .lambda)
    (mem : e ∈ body) (free : Free name e) (unbound : name ∉ params.binders) :
    Free name (.list (.ident head hs :: params :: body) span)
  | call {head hs args span e} (unclassified : Form.classify head = none)
    (mem : e ∈ .ident head hs :: args) (free : Free name e) :
    Free name (.list (.ident head hs :: args) span)
  | indirect {head args span e} (unnamed : head.ident? = none) (mem : e ∈ head :: args)
    (free : Free name e) : Free name (.list (head :: args) span)
  | init {bindings body span b} (mem : b ∈ bindings) (free : Free name b.init) :
    Free name (.letIn bindings body span)
  | body {bindings body span e} (mem : e ∈ body) (free : Free name e)
    (unbound : name ∉ bindings.map (·.name)) : Free name (.letIn bindings body span)

/-- A function definition occurs in an expression, outside quoted data. -/
inductive HasDefun : Expr → Prop
  | defun {head hs args span} (classified : Form.classify head = some .defun) :
    HasDefun (.list (.ident head hs :: args) span)
  | operand {head hs args span e} (unquoted : Form.classify head ≠ some .quote) (mem : e ∈ args)
    (inner : HasDefun e) : HasDefun (.list (.ident head hs :: args) span)
  | indirect {head args span e} (unnamed : head.ident? = none) (mem : e ∈ head :: args)
    (inner : HasDefun e) : HasDefun (.list (head :: args) span)
  | init {bindings body span b} (mem : b ∈ bindings) (inner : HasDefun b.init) :
    HasDefun (.letIn bindings body span)
  | body {bindings body span e} (mem : e ∈ body) (inner : HasDefun e) :
    HasDefun (.letIn bindings body span)

end Expr

/-- A function whose body defines no function and uses parameters and captured names only, and that
has captured only functions of this kind. -/
inductive Closure.SelfContained : Closure Value → Prop
  | intro {f : Closure Value} (noDefun : ∀ e ∈ f.body, ¬ e.HasDefun)
    (closed : ∀ e ∈ f.body, ∀ name, e.Free name → name ∈ f.params ∨ name ∈ f.captures.map (·.1))
    (captured : ∀ entry ∈ f.captures, ∀ g, entry.2.value = .function g → g.SelfContained) :
    f.SelfContained

namespace Eval

/-- Runs the body of a function on top of the frames at hand: what it has captured is pushed, then
its arguments under the names of its parameters. -/
def activate (eval : Expr → EvalM Value) (f : Closure Value) (values : List Value) : EvalM Value :=
  within (fun env => ((env.pushFrame f.captures).pushScope).defineAll (f.params.zip values))
    (evalBody eval f.body)

theorem invoke_eq_activate (eval : Expr → EvalM Value) (f : Closure Value) (args : List Expr)
    (span : Span) : invoke eval f args span = (do
      let values ← args.mapM eval
      if values.length = f.arity then activate eval f values
      else withSpan span (fail (.arityMismatch f.displayName f.arity values.length))) :=
  rfl

/-- Two runs end alike: both with values that print the same, or both in the same halt, and with the
same lines printed. -/
def SameEnd : EStateM.Result Halt World Value → EStateM.Result Halt World Value → Prop
  | .ok v w, .ok v' w' => v'.text = v.text ∧ w'.output = w.output
  | .error halt w, .error halt' w' => halt' = halt ∧ w'.output = w.output
  | _, _ => False

end Eval

end TwinLisp
