import TwinLisp.Form
import TwinLisp.Graph.Paths

/-!
Constants: the slots of a body that hold them, how often control stores to such a slot on its way,
and the constants that a program gives to each of its units.
-/

namespace TwinLisp.Graph

def Instr.storesTo (slot : SlotId) : Instr → Bool
  | perform (.store target _) => target == slot
  | _ => false

/-- A constant of the source. Where it stands in a loop, control may come to it again. -/
structure Constant where
  name : String
  looping : Bool := false
deriving DecidableEq

namespace Body

def frozenSlots (body : Body) : List SlotId :=
  (List.range body.slots.size).filter fun slot => (body.slots[slot]?).any (·.frozen)

/-- How many instructions of the block at a position store to a slot. -/
def storesIn (body : Body) (slot : SlotId) (position : BlockId) : Nat :=
  (body.blocks[position]?).elim 0 fun k => k.instrs.countP (·.storesTo slot)

/-- How often control stores to a slot on its way through blocks. -/
def storesAlong (body : Body) (slot : SlotId) : List BlockId → Nat
  | [] => 0
  | p :: ps => body.storesIn slot p + body.storesAlong slot ps

/-- Whatever way control takes, it stores to the slot at most once. -/
def StoresOnce (body : Body) (slot : SlotId) : Prop :=
  ∀ before position, body.Path before position →
    body.storesAlong slot (position :: before) ≤ 1

/-- The slot holds the constant: it has its name, a single instruction stores to it, and unless the
constant stands in a loop, control comes to that instruction at most once. -/
structure Holds (body : Body) (slot : SlotId) (constant : Constant) : Prop where
  named : body.slots[slot]? = some ⟨constant.name, true⟩
  single : ∃ p, body.storesIn slot p = 1 ∧ ∀ q, q ≠ p → body.storesIn slot q = 0
  once : constant.looping = false → body.StoresOnce slot

end Body

/-- What expressions add to a program: constants of the unit that they belong to, and units of their
own with the constants of those. -/
structure Outline where
  constants : List Constant := []
  units : List (String × List Constant) := []
deriving DecidableEq

namespace Outline

def append (o o' : Outline) : Outline :=
  ⟨o.constants ++ o'.constants, o.units ++ o'.units⟩

instance : Append Outline := ⟨append⟩

def inLoop (o : Outline) : Outline :=
  { o with constants := o.constants.map ({ · with looping := true }) }

/-- The outline of a definition, given that of its body. -/
def ofUnit (name : String) (o : Outline) : Outline :=
  { units := (name, o.constants) :: o.units }

mutual

/-- What an expression adds: a `lambda` has no code, and quoted data are none. -/
def ofExpr : Expr → Outline
  | .list (.ident head _ :: args) _ =>
    match Form.classify head with
    | some .lambda | some .quote => {}
    | some .const =>
      match args with
      -- the initial value is computed first, and may define constants
      | [.ident name _, init] => ofExpr init ++ ({ constants := [⟨name, false⟩] } : Outline)
      | _ => {}
    | some .loop => (ofExprs args).inLoop
    | some .defun =>
      match args with
      | .ident name _ :: _ :: body => (ofExprs body).ofUnit name
      | _ => {}
    | _ => ofExprs args
  | .letIn bindings body _ => ofBindings bindings ++ ofExprs body
  | _ => {}

def ofExprs : List Expr → Outline
  | [] => {}
  | e :: es => ofExpr e ++ ofExprs es

def ofBindings : List (LetBinding Expr) → Outline
  | [] => {}
  | ⟨_, init, _⟩ :: bs => ofExpr init ++ ofBindings bs

end

/-- The units of a program, each with its constants in order. -/
def unitsOf (program : List Expr) : List (String × List Constant) :=
  ((ofExprs program).ofUnit "main").units

variable {o o' : Outline} {head name : String} {hs ns span : Span}

@[simp] theorem constants_append : (o ++ o').constants = o.constants ++ o'.constants := rfl

@[simp] theorem append_empty : o ++ ({} : Outline) = o := by
  obtain ⟨constants, units⟩ := o
  exact congr (congrArg Outline.mk (List.append_nil constants)) (List.append_nil units)

theorem ofExprs_singleton (e : Expr) : ofExprs [e] = ofExpr e := append_empty

theorem ofExprs_pair (e e' : Expr) : ofExprs [e, e'] = ofExpr e ++ ofExpr e' := by
  rw [ofExprs, ofExprs_singleton]

theorem ofBindings_eq (bindings : List (LetBinding Expr)) :
    ofBindings bindings = ofExprs (bindings.map (·.init)) := by
  induction bindings with
  | nil => rfl
  | cons b bindings ih => rw [ofBindings, List.map_cons, ofExprs, ih]

theorem ofExpr_const {init : Expr} (form : Form.classify head = some .const) :
    ofExpr (.list [.ident head hs, .ident name ns, init] span)
      = ofExpr init ++ ({ constants := [⟨name, false⟩] } : Outline) := by
  conv => lhs; unfold ofExpr
  rw [form]

theorem ofExpr_loop {args : List Expr} (form : Form.classify head = some .loop) :
    ofExpr (.list (.ident head hs :: args) span) = (ofExprs args).inLoop := by
  conv => lhs; unfold ofExpr
  rw [form]

theorem ofExpr_defun {place : Expr} {body : List Expr} (form : Form.classify head = some .defun) :
    ofExpr (.list (.ident head hs :: .ident name ns :: place :: body) span)
      = (ofExprs body).ofUnit name := by
  conv => lhs; unfold ofExpr
  rw [form]

theorem ofExpr_lambda {args : List Expr} (form : Form.classify head = some .lambda) :
    ofExpr (.list (.ident head hs :: args) span) = {} := by
  unfold ofExpr
  rw [form]

/-- The operands of most forms, and the arguments of a call, add what they add on their own. -/
theorem ofExpr_plain {args : List Expr}
    (plain : ∀ form, Form.classify head = some form → form ≠ .lambda ∧ form ≠ .quote ∧
      form ≠ .const ∧ form ≠ .loop ∧ form ≠ .defun) :
    ofExpr (.list (.ident head hs :: args) span) = ofExprs args := by
  conv => lhs; unfold ofExpr
  cases found : Form.classify head with
  | none => rfl
  | some form =>
    obtain ⟨noLambda, noQuote, noConst, noLoop, noDefun⟩ := plain form found
    cases form with
    | lambda => exact absurd rfl noLambda
    | quote => exact absurd rfl noQuote
    | const => exact absurd rfl noConst
    | loop => exact absurd rfl noLoop
    | defun => exact absurd rfl noDefun
    | _ => rfl

end Outline

end TwinLisp.Graph
