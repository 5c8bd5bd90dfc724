import TwinLisp.Eval.World

/-! The meaning of special forms and calls, given the meaning `eval` of their parts. -/

namespace TwinLisp.Eval

variable (eval : Expr → EvalM Value)

/-- The last value of a sequence; the empty list where the sequence is empty. -/
def evalBody (body : List Expr) : EvalM Value :=
  body.foldlM (fun _ e => eval e) .nil

def evalInt (e : Expr) : EvalM Int64 := do
  match (← eval e).toInt64 with
  | .ok n => return n
  | .error fault => withSpan e.span (fail fault)

def evalComparison (op : CmpOp) (operands : List Expr) : EvalM Bool := do
  match operands with
  | [left, right] =>
    let a ← evalInt eval left
    let b ← evalInt eval right
    return op.holds a b
  | _ => fail (.compareOperands op operands.length)

/-- A condition: a comparison of integers, or any value taken as true or false. -/
def evalCondition (e : Expr) : EvalM Bool := do
  match e.comparison? with
  | some (op, operands) => withSpan e.span (evalComparison eval op operands)
  | none => return (← eval e).isTruthy

/-- The rest of an operator's operands, folded from the left. -/
def evalOperands (op : ArithOp) (acc : Int64) : List Expr → EvalM Int64
  | [] => return acc
  | e :: es => do
    match op.step? acc (← evalInt eval e) with
    | some acc => evalOperands op acc es
    -- the operand that cannot be divided by, and not the whole form, is to blame
    | none => withSpan e.span (fail .divisionByZero)

def evalArith (op : ArithOp) (operands : List Expr) : EvalM Value := do
  match operands with
  | [] => fail (.arithOperands op 0)
  | [e] =>
    if op.minOperands = 1 then return .int (-(← evalInt eval e))
    else fail (.arithOperands op 1)
  | e :: es => return .int (← evalOperands eval op (← evalInt eval e) es)

def target (form : Form) (e : Expr) : EvalM String :=
  match e.ident? with
  | some name => return name
  | none => fail (.malformed form .target)

def parameters (form : Form) (e : Expr) : EvalM (List String) :=
  match e.names? with
  | some names => return names
  | none => fail (.malformed form .parameters)

/-- Prints values in order, a line each. -/
def evalPrint (args : List Expr) : EvalM Value := do
  if args.isEmpty then fail (.malformed .print .operands)
  -- what is printed before an argument fails stays printed
  args.forM fun e => do printLine (← eval e).text
  return .int 0

def evalSet (args : List Expr) : EvalM Value := do
  match args with
  | [place, init] =>
    let name ← target .set place
    let value ← eval init
    updateEnv (·.assign name value) (.immutableBinding name)
    return value
  | _ => fail (.malformed .set .operands)

def evalConst (args : List Expr) : EvalM Value := do
  match args with
  | [place, init] =>
    let name ← target .const place
    let value ← eval init
    updateEnv (·.defineConst name value) (.duplicateConst name)
    return value
  | _ => fail (.malformed .const .operands)

def evalIf (args : List Expr) : EvalM Value := do
  match args with
  | [cond, yes, no] => if ← evalCondition eval cond then eval yes else eval no
  | _ => fail (.malformed .cond .operands)

def evalNot (args : List Expr) : EvalM Value := do
  match args with
  | [e] => return .ofBool (!(← eval e).isTruthy)
  | _ => fail (.malformed .not .operands)

/-- Whether every operand is true; later ones are not evaluated after a false one. -/
def evalAnd : List Expr → EvalM Value
  | [] => return .ofBool true
  | e :: es => do
    if (← eval e).isTruthy then evalAnd es else return .ofBool false

/-- Whether some operand is true; later ones are not evaluated after a true one. -/
def evalOr : List Expr → EvalM Value
  | [] => return .ofBool false
  | e :: es => do
    if (← eval e).isTruthy then return .ofBool true else evalOr es

/-- A loop that has run its body `done` times; the limit is looked at after the body. -/
def evalIterations (limit : Option Nat) (cond : Expr) (body : List Expr) : Nat → Nat → EvalM Value
  | 0, _ => throw .outOfFuel
  | fuel + 1, done => do
    if ← evalCondition eval cond then
      let _ ← evalBody eval body
      match limit with
      -- at the limit the loop fails, even if its condition were false by now
      | some n =>
        if n ≤ done + 1 then fail (.loopLimit n)
        else evalIterations limit cond body fuel (done + 1)
      | none => evalIterations limit cond body fuel (done + 1)
    else return .int 0

def evalLoop (limit : Option Nat) (fuel : Nat) (args : List Expr) : EvalM Value := do
  match args with
  | cond :: e :: es => evalIterations eval limit cond (e :: es) fuel 0
  | _ => fail (.malformed .loop .operands)

/-- Binds a function globally; its name is bound after it has captured what is visible. -/
def evalDefun (args : List Expr) : EvalM Value := do
  match args with
  | place :: params :: e :: es =>
    let name ← target .defun place
    let params ← parameters .defun params
    let f ← makeFunction (some name) params (e :: es)
    updateEnv (·.defineFunction name f) (.immutableBinding name)
    return .int 0
  | _ => fail (.malformed .defun .operands)

def evalLambda (args : List Expr) : EvalM Value := do
  match args with
  | params :: e :: es => makeFunction none (← parameters .lambda params) (e :: es)
  | _ => fail (.malformed .lambda .operands)

def evalQuote (args : List Expr) : EvalM Value := do
  match args with
  | [datum] => return .quoted datum
  | _ => fail (.malformed .quote .operands)

/-- Calls a function; arguments are evaluated outside it, before they are counted. -/
def invoke (f : Closure Value) (args : List Expr) (span : Span) : EvalM Value := do
  let values ← args.mapM eval
  if values.length = f.arity then
    -- parameters hide what was captured, and that hides what the caller has bound
    within (fun env => ((env.pushFrame f.captures).pushScope).defineAll (f.params.zip values))
      (evalBody eval f.body)
  else withSpan span (fail (.arityMismatch f.displayName f.arity values.length))

def evalNamedCall (name : String) (args : List Expr) (span : Span) : EvalM Value := do
  match (← get).env.lookup name with
  | some (.function f) => invoke eval f args span
  | some v => withSpan span (fail (.notCallable v.typeName))
  | none => withSpan span (fail (.undefinedFunction name))

def evalForm (limit : Option Nat) (fuel : Nat) (form : Form) (args : List Expr) : EvalM Value :=
  match form with
  | .print => evalPrint eval args
  | .set => evalSet eval args
  | .const => evalConst eval args
  | .cond => evalIf eval args
  | .not => evalNot eval args
  | .and => evalAnd eval args
  | .or => evalOr eval args
  | .loop => evalLoop eval limit fuel args
  | .defun => evalDefun args
  | .lambda => evalLambda args
  | .quote => evalQuote args
  | .arith op => evalArith eval op args
  | .compare op => fail (.comparisonAsValue op)

/-- A list: a special form, a call by name, or a call of what its head yields. -/
def evalList (limit : Option Nat) (fuel : Nat) (items : List Expr) (span : Span) :
    EvalM Value := do
  match items with
  | [] => withSpan span (fail .emptyList)
  | head :: args =>
    match head.ident? with
    | some name =>
      match Form.classify name with
      -- an error that is not about a part of the form is about all of it
      | some form => withSpan span (evalForm eval limit fuel form args)
      | none => evalNamedCall eval name args span
    | none =>
      -- the head is evaluated before the arguments, also if it turns out to be no function
      match ← eval head with
      | .function f => invoke eval f args span
      | v => withSpan span (fail (.notCallable v.typeName))

/-- A `let` form: every initial value is computed before the scope is entered. -/
def evalLet (bindings : List (LetBinding Expr)) (body : List Expr) : EvalM Value := do
  let pairs ← bindings.mapM fun b => return (b.name, ← eval b.init)
  within (fun env => env.pushScope.defineAll pairs) (evalBody eval body)

def evalVariable (name : String) (span : Span) : EvalM Value := do
  match (← get).env.lookup name with
  | some v => return v
  | none => withSpan span (fail (.undefinedVariable name))

/-- An expression, one layer deep. -/
def evalLayer (limit : Option Nat) (fuel : Nat) : Expr → EvalM Value
  | .int n _ => return .int n
  | .str text _ => return .str text
  | .ident name span => evalVariable name span
  | .quote datum _ _ => return .quoted datum
  | .list items span => evalList eval limit fuel items span
  | .letIn bindings body _ => evalLet eval bindings body

end TwinLisp.Eval
