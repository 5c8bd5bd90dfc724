import TwinLisp.Form
import TwinLisp.Graph.Denotation
import TwinLisp.Graph.WellFormed

/-!
Texts that a program prints: the string constants that stand for them in a listing, and the blocks of
each unit in which they are printed.
-/

namespace TwinLisp.Graph

/-- The line declares a string constant of these bytes: it counts them, and spells them between
quotation marks with printable ASCII that has no other quotation mark, which can be read in no other
way. -/
def DeclaresConstant (id : StringId) (bytes : List UInt8) (line : String) : Prop :=
  ∃ text : List Char,
    line = stringText id ++ " = private constant [" ++ toString bytes.length ++ " x i8] c\"" ++
      String.ofList text ++ "\"" ∧
    (∀ c ∈ text, 32 ≤ c.toNat ∧ c.toNat ≤ 126 ∧ c ≠ '"') ∧
    ∀ other, Spells text other ↔ other = bytes

/-- The listing has the string constant with the bytes of a text, ended by a zero byte. -/
def Module.ListsText (m : Module) (id : StringId) (text : String) : Prop :=
  ∃ line ∈ m.listingLines, DeclaresConstant id (utf8Bytes text ++ [0]) line

/-- The string constants that the block at a position prints, in order. -/
def Body.printedIn (body : Body) (position : BlockId) : List StringId :=
  (body.blocks[position]?).elim [] (·.instrs.filterMap Instr.string?)

/-- Where lowering has got to in a unit: the block that code is added to, the block that is made
next, and the texts that have been printed, each with its block. Units that have been finished stand
by with their own. -/
structure Plan where
  block : BlockId := 0
  next : BlockId := 1
  texts : List (BlockId × String) := []
  units : List (String × List (BlockId × String)) := []
deriving DecidableEq

def textsIn (texts : List (BlockId × String)) (block : BlockId) : List String :=
  (texts.filter (·.1 = block)).map (·.2)

theorem textsIn_append (texts : List (BlockId × String)) (place block : BlockId) (text : String) :
    textsIn (texts ++ [(place, text)]) block =
      textsIn texts block ++ if place = block then [text] else [] := by
  unfold textsIn
  rw [List.filter_append, List.map_append]
  by_cases here : place = block
  · simp [here]
  · simp [here]

namespace Plan

def print (plan : Plan) (text : String) : Plan :=
  { plan with texts := plan.texts ++ [(plan.block, text)] }

def moveTo (plan : Plan) (block : BlockId) : Plan :=
  { plan with block }

def make (plan : Plan) (blocks : Nat) : Plan :=
  { plan with next := plan.next + blocks }

/-- A unit begins with one block of its own. -/
def openUnit (plan : Plan) : Plan :=
  { units := plan.units }

def closeUnit (plan : Plan) (name : String) (inner : Plan) : Plan :=
  { plan with units := inner.units ++ [(name, inner.texts)] }

mutual

/-- Where an expression prints, and where code goes on after it. A `lambda` has no code, and a text
stands for the code that prints it. -/
def expr (plan : Plan) : Expr → Plan
  | .str text _ => plan.print text
  | .list (.ident head _ :: args) _ =>
    match Form.classify head with
    | some .lambda | some .quote => plan
    | some .cond =>
      match args with
      | [test, yes, no] =>
        -- the three blocks are made behind those of the condition
        let tested := plan.expr test
        let first := ((tested.make 3).moveTo tested.next).expr yes
        let second := (first.moveTo (tested.next + 1)).expr no
        second.moveTo (tested.next + 2)
      | _ => plan
    | some .and | some .or =>
      match args with
      | [] => plan
      -- the block where all operands meet is made before any of them has code
      | _ :: _ => ((plan.make 1).operands args).moveTo plan.next
    | some .loop =>
      match args with
      | test :: body =>
        -- the condition is run in the first of the three, and may make more
        let tested := ((plan.make 3).moveTo plan.next).expr test
        let run := (tested.moveTo (plan.next + 1)).exprs body
        run.moveTo (plan.next + 2)
      | [] => plan
    | some .defun =>
      match args with
      | .ident name _ :: _ :: body => plan.closeUnit name (plan.openUnit.exprs body)
      | _ => plan
    | _ => plan.exprs args
  | .letIn inits body _ => (plan.bindings inits).exprs body
  | _ => plan

def exprs (plan : Plan) : List Expr → Plan
  | [] => plan
  | e :: es => (plan.expr e).exprs es

/-- The operands of `and` and `or`: after each a block is made, where code goes on. -/
def operands (plan : Plan) : List Expr → Plan
  | [] => plan
  | e :: es =>
    let valued := plan.expr e
    ((valued.make 1).moveTo valued.next).operands es

def bindings (plan : Plan) : List (LetBinding Expr) → Plan
  | [] => plan
  | ⟨_, init, _⟩ :: bs => (plan.expr init).bindings bs

end

/-- The units of a program, each with the texts that it prints and their blocks. -/
def unitsOf (program : List Expr) : List (String × List (BlockId × String)) :=
  (closeUnit {} "main" (exprs {} program)).units

variable {plan : Plan} {head name : String} {hs ns span : Span} {args : List Expr}

theorem bindings_eq (inits : List (LetBinding Expr)) :
    plan.bindings inits = plan.exprs (inits.map (·.init)) := by
  induction inits generalizing plan with
  | nil => rfl
  | cons b inits ih => rw [bindings, List.map_cons, exprs, ih]

theorem expr_cond {test yes no : Expr} (form : Form.classify head = some .cond) :
    plan.expr (.list [.ident head hs, test, yes, no] span) =
      (((((plan.expr test).make 3).moveTo (plan.expr test).next |>.expr yes).moveTo
        ((plan.expr test).next + 1)).expr no).moveTo ((plan.expr test).next + 2) := by
  conv => lhs; unfold expr
  rw [form]

theorem expr_logic {decides : Bool} {e : Expr}
    (form : Form.classify head = some (if decides then .or else .and)) :
    plan.expr (.list (.ident head hs :: e :: args) span) =
      ((plan.make 1).operands (e :: args)).moveTo plan.next := by
  conv => lhs; unfold expr
  rw [form]
  cases decides <;> rfl

theorem expr_logicEmpty {decides : Bool}
    (form : Form.classify head = some (if decides then .or else .and)) :
    plan.expr (.list [.ident head hs] span) = plan := by
  unfold expr
  rw [form]
  cases decides <;> rfl

theorem expr_loop {test : Expr} (form : Form.classify head = some .loop) :
    plan.expr (.list (.ident head hs :: test :: args) span) =
      (((((plan.make 3).moveTo plan.next).expr test).moveTo (plan.next + 1)).exprs args).moveTo
        (plan.next + 2) := by
  conv => lhs; unfold expr
  rw [form]

theorem expr_defun {place : Expr} (form : Form.classify head = some .defun) :
    plan.expr (.list (.ident head hs :: .ident name ns :: place :: args) span) =
      plan.closeUnit name (plan.openUnit.exprs args) := by
  conv => lhs; unfold expr
  rw [form]

theorem expr_lambda (form : Form.classify head = some .lambda) :
    plan.expr (.list (.ident head hs :: args) span) = plan := by
  unfold expr
  rw [form]

/-- Most forms, and calls, run their parts in order. -/
theorem expr_plain (plain : ∀ form, Form.classify head = some form → form ≠ .lambda ∧
    form ≠ .quote ∧ form ≠ .cond ∧ form ≠ .and ∧ form ≠ .or ∧ form ≠ .loop ∧ form ≠ .defun) :
    plan.expr (.list (.ident head hs :: args) span) = plan.exprs args := by
  conv => lhs; unfold expr
  cases found : Form.classify head with
  | none => rfl
  | some form =>
    obtain ⟨noLambda, noQuote, noCond, noAnd, noOr, noLoop, noDefun⟩ := plain form found
    cases form with
    | lambda => exact absurd rfl noLambda
    | quote => exact absurd rfl noQuote
    | cond => exact absurd rfl noCond
    | and => exact absurd rfl noAnd
    | or => exact absurd rfl noOr
    | loop => exact absurd rfl noLoop
    | defun => exact absurd rfl noDefun
    | _ => rfl

end Plan

end TwinLisp.Graph
