import TwinLisp.Graph.Lowering.State

/-! The code of special forms and calls, given the code of their parts. -/

namespace TwinLisp.Graph.Lowering

/-- How to add the code of an expression: `value` computes its value, `test` its truth as a
condition. -/
structure Code where
  source : Expr
  value : LowerM Operand
  test : LowerM ValueId

def compare (op : CmpOp) (left right : Operand) : LowerM ValueId :=
  build (·.emit (.compare op left right))

/-- A value is true where it is not zero. -/
def testNonzero (value : LowerM Operand) : LowerM ValueId := do
  compare .ne (← value) (.const 0)

/-- A sequence yields its last value, or zero where it is empty. -/
def lowerBody (body : List Code) : LowerM Operand :=
  body.foldlM (fun _ c => c.value) (.const 0)

def target (form : Form) (e : Expr) : LowerM String :=
  match e.ident? with
  | some name => return name
  | none => fail (.malformed form .target) e.span

def parameters (form : Form) (e : Expr) : LowerM (List String) :=
  match e.names? with
  | some names => return names
  | none => fail (.malformed form .parameters) e.span

def internString (text : String) : LowerM StringId :=
  modifyGet fun s =>
    let (id, module) := s.module.internString text
    (id, { s with module })

/-- Prints a string literal as it is and any other argument as an integer. -/
def lowerPrintArg (c : Code) : LowerM Unit := do
  match c.source with
  | .str text _ => perform (.printStr (← internString text))
  | _ => perform (.printInt (← c.value))

def lowerPrint (args : List Code) (span : Span) : LowerM Operand := do
  if args.isEmpty then fail (.malformed .print .operands) span
  args.forM lowerPrintArg
  return .const 0

/-- Stores into the slot of a variable; an unknown variable belongs to the whole unit. -/
def lowerSet (args : List Code) (span : Span) : LowerM Operand := do
  match args with
  | [place, init] =>
    let name ← target .set place.source
    let value ← init.value
    -- the code of the value may itself have made the variable known
    let u := (← get).current
    match u.lookup name with
    | some slot =>
      if u.isFrozen slot then fail (.immutableBinding name) span
      perform (.store slot value)
    | none => newVariable UnitState.bindOuter name false value
    return value
  | _ => fail (.malformed .set .operands) span

/-- Stores into a new frozen slot. -/
def lowerConst (args : List Code) (span : Span) : LowerM Operand := do
  match args with
  | [place, init] =>
    let name ← target .const place.source
    let value ← init.value
    let u := (← get).current
    -- a variable of that name is hidden; only another constant is in the way
    if (u.lookup name).any u.isFrozen then fail (.duplicateConst name) span
    newVariable UnitState.bindInner name true value
    return value
  | _ => fail (.malformed .const .operands) span

/-- An arm of a branch, from `start` to `merge`: its value and the block that it ends in, which
need not be the one that it starts in. -/
def lowerArm (arm : Code) (start merge : BlockId) : LowerM (BlockId × Operand) := do
  positionAt start
  let value ← arm.value
  let exit ← currentBlock
  terminate (.br merge)
  return (exit, value)

/-- Two arms whose values meet in a third block. -/
def lowerIf (args : List Code) (span : Span) : LowerM Operand := do
  match args with
  | [cond, yes, no] =>
    let cond ← cond.test
    -- the code of the condition may have blocks of its own: the three come behind them, in a row
    let yesBlock ← newBlock
    let noBlock ← newBlock
    let merge ← newBlock
    terminate (.condBr cond yesBlock noBlock)
    let yesEdge ← lowerArm yes yesBlock merge
    let noEdge ← lowerArm no noBlock merge
    positionAt merge
    emit (.phi [yesEdge, noEdge])
  | _ => fail (.malformed .cond .operands) span

/-- Whether the operand is zero. -/
def lowerNot (args : List Code) (span : Span) : LowerM Operand := do
  match args with
  | [operand] =>
    let isZero ← compare .eq (← operand.value) (.const 0)
    emit (.extend isZero)
  | _ => fail (.malformed .not .operands) span

/-- Tests operands one after the other; `decides` is the truth that settles the result, and each
test leaves for `merge` with it. -/
def lowerTests (decides : Bool) (merge : BlockId) :
    List Code → LowerM (List (BlockId × Operand))
  | [] => return []
  | c :: cs => do
    let truth ← testNonzero c.value
    let next ← newBlock
    -- where the operand has brought control, which need not be where it began
    let exit ← currentBlock
    terminate (if decides then .condBr truth merge next else .condBr truth next merge)
    positionAt next
    return (exit, .const (if decides then 1 else 0)) :: (← lowerTests decides merge cs)

/-- `and` and `or`: `decides` is the truth of an operand that settles the result. -/
def lowerLogic (decides : Bool) (operands : List Code) : LowerM Operand := do
  let otherwise : Operand := .const (if decides then 0 else 1)
  if operands.isEmpty then return otherwise
  let merge ← newBlock
  let incoming ← lowerTests decides merge operands
  let exit ← currentBlock
  terminate (.br merge)
  positionAt merge
  emit (.phi (incoming ++ [(exit, otherwise)]))

/-- A block for the condition, one for the body, and one for what follows. -/
def lowerLoop (args : List Code) (span : Span) : LowerM Operand := do
  match args with
  | cond :: c :: cs =>
    let condBlock ← newBlock
    let bodyBlock ← newBlock
    let after ← newBlock
    terminate (.br condBlock)
    positionAt condBlock
    let cond ← cond.test
    terminate (.condBr cond bodyBlock after)
    positionAt bodyBlock
    let _ ← lowerBody (c :: cs)
    -- from wherever the body ends, back to the first block of the condition
    terminate (.br condBlock)
    positionAt after
    return .const 0
  | _ => fail (.malformed .loop .operands) span

/-- The rest of an operator's operands, folded from the left; a literal zero is no divisor. -/
def lowerOperands (op : ArithOp) (acc : Operand) : List Code → LowerM Operand
  | [] => return acc
  | c :: cs => do
    let right ← c.value
    -- any other divisor is known only when the program runs
    if op = .div ∧ right = .const 0 then fail .divisionByZero c.source.span
    lowerOperands op (← emit (.arith op acc right)) cs

def lowerArith (op : ArithOp) (operands : List Code) (span : Span) : LowerM Operand := do
  match operands with
  | [] => fail (.arithOperands op 0) span
  | [c] =>
    -- one operand is enough for `-` alone, which then negates it
    if op.minOperands = 1 then emit (.neg (← c.value))
    else fail (.arithOperands op 1) span
  | c :: cs => lowerOperands op (← c.value) cs

/-- The unit of a definition: one that a call or the first pass has declared, or a new one. -/
def defineUnit (name : String) (arity : Nat) (span : Span) : LowerM UnitId := do
  let s ← get
  match s.signatures.get? name with
  | some signature =>
    let unit := signature.unit
    -- a unit in progress has no body yet, but it is going to have one
    if s.module.isDefined unit || s.inProgress.contains unit then fail (.redefinition name) span
    -- the definition has the last word on what a call has inferred
    set { s with
      module := s.module.setArity unit arity
      signatures := s.signatures.declare name unit arity }
    return unit
  | none =>
    let (unit, module) := s.module.declareUnit name arity
    set { s with module, signatures := s.signatures.declare name unit arity }
    return unit

/-- Builds the body of a unit by `act`, then comes back to the unit under construction. -/
def inUnit (unit : UnitId) (arity : Nat) (act : LowerM Operand) : LowerM Unit := do
  let outer ← get
  set { outer with current := .new unit arity, inProgress := unit :: outer.inProgress }
  let result ← act
  terminate (.ret result)
  -- what the body has declared stays; the unit under construction is put back
  let inner ← get
  set { inner with
    module := inner.module.setBody unit inner.current.builder.finish
    current := outer.current
    inProgress := outer.inProgress }

/-- Stores each parameter into a slot of its own. -/
def lowerParams (params : List String) : LowerM Unit := do
  let values := (← get).current.builder.params
  (params.zip values).forM fun (name, value) =>
    newVariable UnitState.bindInner name false (.value value)

/-- A definition: its body becomes a unit. -/
def lowerDefun (args : List Code) (span : Span) : LowerM Operand := do
  match args with
  | place :: params :: c :: cs =>
    let name ← target .defun place.source
    let names ← parameters .defun params.source
    let unit ← defineUnit name names.length span
    inUnit unit names.length do
      lowerParams names
      lowerBody (c :: cs)
    return .const 0
  | _ => fail (.malformed .defun .operands) span

/-- The unit that a call names; an unknown one is declared with as many parameters as the call
has arguments. -/
def callee (name : String) (arity : Nat) (span : Span) : LowerM UnitId := do
  let s ← get
  match s.signatures.get? name with
  | some signature =>
    if signature.arity = arity then return signature.unit
    else fail (.arityMismatch name signature.arity arity) span
  | none =>
    let (unit, module) := s.module.declareUnit name arity
    set { s with module, signatures := s.signatures.infer name unit arity }
    return unit

/-- A call by name; a variable of that name hides the function. -/
def lowerCall (name : String) (args : List Code) (span : Span) : LowerM Operand := do
  if ((← get).current.lookup name).isSome then
    fail (.unsupported "a call through a variable") span
  let operands ← args.mapM (·.value)
  -- the code of the arguments comes first, and it may declare the unit
  let unit ← callee name operands.length span
  emit (.call unit operands)

def lowerForm (form : Form) (args : List Code) (span : Span) : LowerM Operand :=
  match form with
  | .print => lowerPrint args span
  | .set => lowerSet args span
  | .const => lowerConst args span
  | .cond => lowerIf args span
  | .not => lowerNot args span
  | .and => lowerLogic false args
  | .or => lowerLogic true args
  | .loop => lowerLoop args span
  | .defun => lowerDefun args span
  -- functions without a name have no code, and nobody looks at their parts
  | .lambda => return .const 0
  | .quote => fail (.unsupported "quote") span
  | .arith op => lowerArith op args span
  -- a comparison has a truth, but no value
  | .compare op => fail (.comparisonAsValue op) span

def lowerList (items : List Code) (span : Span) : LowerM Operand :=
  match items with
  | [] => fail .emptyList span
  | head :: args =>
    match head.source.ident? with
    | none => fail (.unsupported "an indirect call") span
    | some name =>
      match Form.classify name with
      | some form => lowerForm form args span
      | none => lowerCall name args span

def testComparison (op : CmpOp) (operands : List Code) (span : Span) : LowerM ValueId := do
  match operands with
  | [left, right] =>
    let a ← left.value
    let b ← right.value
    compare op a b
  | _ => fail (.compareOperands op operands.length) span

def testList (items : List Code) (span : Span) : LowerM ValueId :=
  match (Expr.list (items.map (·.source)) span).comparison? with
  | some (op, _) => testComparison op items.tail span
  | none => testNonzero (lowerList items span)

/-- A `let` form: every initial value is computed before the scope is entered. -/
def lowerLet (bindings : List (String × Code)) (body : List Code) : LowerM Operand := do
  let pairs ← bindings.mapM fun (name, c) => return (name, ← c.value)
  modifyUnit (·.pushScope)
  pairs.forM fun (name, value) => newVariable UnitState.bindInner name false value
  let result ← lowerBody body
  -- the slots stay, but their names are forgotten
  modifyUnit (·.popScope)
  return result

def lowerVariable (name : String) (span : Span) : LowerM Operand := do
  match (← get).current.lookup name with
  | some slot => emit (.load slot)
  | none => fail (.undefinedVariable name) span

namespace Code

/-- An expression whose truth is that its value is not zero. -/
def ofValue (source : Expr) (value : LowerM Operand) : Code :=
  ⟨source, value, testNonzero value⟩

mutual

/-- The code of an expression. Parts are looked at when their code is added and not before: some
forms are refused, or have no code, whatever their parts are. -/
def ofExpr : Expr → Code
  | .int n span => ofValue (.int n span) (return .const n)
  | .str text span => ofValue (.str text span) (fail (.unsupported "a string outside `print`") span)
  | .ident name span => ofValue (.ident name span) (lowerVariable name span)
  | .quote datum style span =>
    ofValue (.quote datum style span) (fail (.unsupported "quote") span)
  -- of all expressions only a list may be a comparison, with a test of its own
  | .list items span =>
    ⟨.list items span, fun s => lowerList (ofExprs items) span s,
      fun s => testList (ofExprs items) span s⟩
  | .letIn bindings body span =>
    ofValue (.letIn bindings body span)
      fun s => lowerLet (ofBindings bindings) (ofExprs body) s

def ofExprs : List Expr → List Code
  | [] => []
  | e :: es => ofExpr e :: ofExprs es

def ofBindings : List (LetBinding Expr) → List (String × Code)
  | [] => []
  | ⟨name, init, _⟩ :: bs => (name, ofExpr init) :: ofBindings bs

end

end Code

end TwinLisp.Graph.Lowering
