import TwinLisp.Proofs.Expr
import TwinLisp.Proofs.Lowering.Transition

/-!
The successful runs of lowering as derivations: one rule for each way in which a form is lowered,
with the states that it passes through. Everything that is proved about lowered code goes by
induction over these derivations.
-/

namespace TwinLisp.Graph.Lowering

def lastOf (values : List Operand) : Operand := values.getLastD (.const 0)

/-- What the last edge of `and` or `or` carries: no operand has settled the result. -/
def undecided (decides : Bool) : Operand := .const (if decides then 0 else 1)

/-- What the edge of an operand carries that settles the result. -/
def decided (decides : Bool) : Operand := .const (if decides then 1 else 0)

mutual

/-- `Value e s a s'`: lowering `e` for its value goes from `s` to `s'` and yields `a`. -/
inductive Value : Expr → State → Operand → State → Prop
  | int {n span s} : Value (.int n span) s (.const n) s
  | variable {name span s slot} (known : s.current.lookup name = some slot) :
    Value (.ident name span) s (.value s.fresh) (s.emit (.load slot))
  | letIn {bindings body span s inits s₁ results s₂}
    (initial : Values (bindings.map (·.init)) s inits s₁)
    (inner : Values body (s₁.enterScope ((bindings.map (·.name)).zip inits)) results s₂) :
    Value (.letIn bindings body span) s (lastOf results) s₂.leaveScope
  | print {head hs args span s s'} (form : Form.classify head = some .print)
    (nonempty : args ≠ []) (printed : Prints args s s') : Value (.list (.ident head hs :: args) span) s (.const 0) s'
  -- the name is looked up behind its value, which may have introduced it
  | store {head hs name ns init span s a s₁ slot} (form : Form.classify head = some .set)
    (value : Value init s a s₁) (known : s₁.current.lookup name = some slot)
    (mutable : s₁.current.isFrozen slot = false) :
    Value (.list [.ident head hs, .ident name ns, init] span) s a (s₁.perform (.store slot a))
  | introduce {head hs name ns init span s a s₁} (form : Form.classify head = some .set)
    (value : Value init s a s₁) (unknown : s₁.current.lookup name = none) :
    Value (.list [.ident head hs, .ident name ns, init] span) s a
      (s₁.bindNew UnitState.bindOuter name false a)
  | const {head hs name ns init span s a s₁} (form : Form.classify head = some .const)
    (value : Value init s a s₁)
    (mutable : (s₁.current.lookup name).any s₁.current.isFrozen = false) :
    Value (.list [.ident head hs, .ident name ns, init] span) s a
      (s₁.bindNew UnitState.bindInner name true a)
  -- an arm may end in another block than it began in: the edges come from where lowering then stands
  | cond {head hs test yes no span s c s₁ a s₂ b s₃} (form : Form.classify head = some .cond)
    (tested : Test test s c s₁) (first : Value yes (s₁.openArms c) a s₂)
    (second : Value no (s₂.jump (s₁.nextBlock + 2) (s₁.nextBlock + 1)) b s₃) :
    Value (.list [.ident head hs, test, yes, no] span) s (.value s₃.fresh)
      ((s₃.jump (s₁.nextBlock + 2) (s₁.nextBlock + 2)).emit
        (.phi [(s₂.block, a), (s₃.block, b)]))
  | not {head hs e span s a s₁} (form : Form.classify head = some .not) (value : Value e s a s₁) :
    Value (.list [.ident head hs, e] span) s (.value (s₁.fresh + 1))
      ((s₁.emit (.compare .eq a (.const 0))).emit (.extend s₁.fresh))
  | logicEmpty {head hs span s decides}
    (form : Form.classify head = some (if decides then .or else .and)) :
    Value (.list [.ident head hs] span) s (undecided decides) s
  | logic {head hs e es span s decides edges s₁}
    (form : Form.classify head = some (if decides then .or else .and))
    (tests : Tests decides s.nextBlock (e :: es) s.newBlock edges s₁) :
    Value (.list (.ident head hs :: e :: es) span) s (.value s₁.fresh)
      ((s₁.jump s.nextBlock s.nextBlock).emit
        (.phi (edges.map (·, decided decides) ++ [(s₁.block, undecided decides)])))
  -- a loop has three new blocks: its condition, its body and what follows
  | loop {head hs test e es span s c s₁ results s₂} (form : Form.classify head = some .loop)
    (tested : Test test s.openLoop c s₁)
    (body : Values (e :: es)
      ((s₁.terminate (.condBr c (s.nextBlock + 1) (s.nextBlock + 2))).positionAt (s.nextBlock + 1))
      results s₂) :
    Value (.list (.ident head hs :: test :: e :: es) span) s (.const 0)
      (s₂.jump s.nextBlock (s.nextBlock + 2))
  -- strings, units and signatures of the body stay, the unit under construction is the outer one again
  | defun {head hs name ns place params e es span s unit s₁ results s₂}
    (form : Form.classify head = some .defun) (listed : place.names? = some params)
    (defined : s.define? name params.length = some (unit, s₁))
    (body : Values (e :: es) (s₁.enterUnit unit params) results s₂) :
    Value (.list (.ident head hs :: .ident name ns :: place :: e :: es) span) s (.const 0)
      (s₂.leaveUnit unit (lastOf results) s₁)
  | lambda {head hs args span s} (form : Form.classify head = some .lambda) :
    Value (.list (.ident head hs :: args) span) s (.const 0) s
  | neg {head hs e span s a s₁} (form : Form.classify head = some (.arith .sub))
    (value : Value e s a s₁) :
    Value (.list [.ident head hs, e] span) s (.value s₁.fresh) (s₁.emit (.neg a))
  | arith {head hs e e' es span s op a s₁ r s₂} (form : Form.classify head = some (.arith op))
    (first : Value e s a s₁) (rest : Operands op a (e' :: es) s₁ r s₂) :
    Value (.list (.ident head hs :: e :: e' :: es) span) s r s₂
  -- the callee is looked up behind the arguments, which may define it
  | call {head hs args span s operands s₁ unit s₂} (noForm : Form.classify head = none)
    (unknown : s.current.lookup head = none) (arguments : Values args s operands s₁)
    (found : s₁.callee? head operands.length = some (unit, s₂)) :
    Value (.list (.ident head hs :: args) span) s (.value s₂.fresh) (s₂.emit (.call unit operands))

/-- Lowering an expression as a condition; the value is the truth that it is tested by. -/
inductive Test : Expr → State → ValueId → State → Prop
  | compare {head hs left right span s op a s₁ b s₂}
    (form : Form.classify head = some (.compare op)) (first : Value left s a s₁)
    (second : Value right s₁ b s₂) :
    Test (.list [.ident head hs, left, right] span) s s₂.fresh (s₂.emit (.compare op a b))
  | nonzero {e s a s₁} (plain : e.comparison? = none) (value : Value e s a s₁) :
    Test e s s₁.fresh (s₁.emit (.compare .ne a (.const 0)))

/-- Lowering expressions one after the other. -/
inductive Values : List Expr → State → List Operand → State → Prop
  | nil {s} : Values [] s [] s
  | cons {e es s a s₁ as s₂} (first : Value e s a s₁) (rest : Values es s₁ as s₂) :
    Values (e :: es) s (a :: as) s₂

/-- Lowering the arguments of `print`. -/
inductive Prints : List Expr → State → State → Prop
  | nil {s} : Prints [] s s
  | str {text span es s s'}
    (rest : Prints es ((s.intern text).2.perform (.printStr (s.intern text).1)) s') :
    Prints (.str text span :: es) s s'
  | int {e es s a s₁ s'} (value : Value e s a s₁)
    (rest : Prints es (s₁.perform (.printInt a)) s') : Prints (e :: es) s s'

/-- Lowering the rest of an operator's operands onto what the earlier ones yield. -/
inductive Operands : ArithOp → Operand → List Expr → State → Operand → State → Prop
  | nil {op acc s} : Operands op acc [] s acc s
  | cons {op acc e es s a s₁ r s₂} (value : Value e s a s₁)
    (divisor : ¬(op = .div ∧ a = .const 0))
    (rest : Operands op (.value s₁.fresh) es (s₁.emit (.arith op acc a)) r s₂) :
    Operands op acc (e :: es) s r s₂

/-- Lowering the operands of `and` or `or`; the blocks are those that leave for `merge`. -/
inductive Tests : Bool → BlockId → List Expr → State → List BlockId → State → Prop
  | nil {decides merge s} : Tests decides merge [] s [] s
  | cons {decides merge e es s a s₁ edges s₂} (value : Value e s a s₁)
    (rest : Tests decides merge es
      ((s₁.emit (.compare .ne a (.const 0))).test decides merge s₁.fresh) edges s₂) :
    Tests decides merge (e :: es) s (s₁.block :: edges) s₂

end

end TwinLisp.Graph.Lowering
