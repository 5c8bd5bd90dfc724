import TwinLisp.Environment
import TwinLisp.Output

/-! What evaluation works on, and the ways in which it stops. -/

namespace TwinLisp.Eval

/-- Why evaluation stops without a value; `outOfFuel` only says that the bound was too low. -/
inductive Halt
  | failed (error : EvalError)
  | outOfFuel
deriving DecidableEq

/-- Puts an error at `span`, unless it has a place. -/
def Halt.withSpan (span : Span) : Halt → Halt
  | failed error => failed (error.withSpan span)
  | outOfFuel => outOfFuel

/-- What expressions can change; `created` counts the functions made so far. -/
structure World where
  env : Environment
  output : Output
  created : Nat

namespace World

def initial (output : Output) : World :=
  ⟨.initial "nil", output, 0⟩

end World

/-- A computation on a world; the world stays changed when it fails. -/
abbrev EvalM := EStateM Halt World

/-- Stops with a fault, which has no place as yet. -/
def fail {α : Type} (fault : Fault) : EvalM α :=
  throw (.failed { fault })

/-- Runs `act`; an error that comes out of it without a place is put at `span`. -/
def withSpan {α : Type} (span : Span) (act : EvalM α) : EvalM α :=
  act.adaptExcept (·.withSpan span)

theorem withSpan_of_ok {α : Type} {act : EvalM α} {span : Span} {w u : World} {a : α}
    (run : act w = .ok a u) : withSpan span act w = .ok a u := by
  unfold withSpan EStateM.adaptExcept
  rw [run]

theorem withSpan_of_error {α : Type} {act : EvalM α} {span : Span} {w u : World} {halt : Halt}
    (run : act w = .error halt u) : withSpan span act w = .error (halt.withSpan span) u := by
  unfold withSpan EStateM.adaptExcept
  rw [run]

/-- To say where an error is does not make it go away, nor does it bring one about. -/
theorem withSpan_ok_iff {α : Type} {act : EvalM α} {span : Span} {w u : World} {a : α} :
    withSpan span act w = .ok a u ↔ act w = .ok a u := by
  unfold withSpan EStateM.adaptExcept
  cases act w <;> simp

/-- Changes the environment, or stops with a fault where the change is refused. -/
def updateEnv (change : Environment → Except Refusal Environment) (fault : Fault) : EvalM Unit := do
  let w ← get
  match change w.env with
  | .ok env => set { w with env }
  | .error _ => fail fault

/-- Runs `act` inside the scopes that `enter` adds and leaves them, however `act` ends. -/
def within {α : Type} (enter : Environment → Environment) (act : EvalM α) : EvalM α := fun w =>
  match act { w with env := enter w.env } with
  | .ok a w' => .ok a { w' with env := w'.env.truncate w.env.depth }
  -- an error leaves no scope behind either
  | .error halt w' => .error halt { w' with env := w'.env.truncate w.env.depth }

def printLine (line : String) : EvalM Unit :=
  modify fun w => { w with output := w.output.println line }

/-- Makes a function that captures what is visible. -/
def makeFunction (name : Option String) (params : List String) (body : List Expr) :
    EvalM Value := do
  let w ← get
  set { w with created := w.created + 1 }
  return .function ⟨w.created, name, params, body, w.env.snapshot⟩

end TwinLisp.Eval
