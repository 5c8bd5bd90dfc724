import TwinLisp.Expr
import TwinLisp.Fault
import TwinLisp.Table
import TwinLisp.Text.Decimal

/-! Values of running programs and the functions among them. -/

namespace TwinLisp

/-- Whether a binding can be assigned to. -/
inductive Mutability
  | mutable
  | frozen
deriving DecidableEq

structure Binding (α : Type) where
  value : α
  mutability : Mutability
deriving DecidableEq

/-- A function with every binding that was visible where it was made; `stamp` tells apart
functions that are alike. -/
structure Closure (α : Type) where
  stamp : Nat
  name : Option String
  params : List String
  body : List Expr
  captures : List (String × Binding α)

/-- A value: data, or a function. -/
inductive Value
  | int (n : Int64)
  | str (text : String)
  | sym (name : String)
  | list (items : List Value)
  | function (f : Closure Value)

namespace Closure

variable {α : Type}

def arity (f : Closure α) : Nat :=
  f.params.length

/-- The name that messages give the function. -/
def displayName (f : Closure α) : String :=
  f.name.getD "<lambda>"

end Closure

namespace Value

def nil : Value := .list []

instance : Inhabited Value := ⟨nil⟩

def ofBool (b : Bool) : Value :=
  .int (if b then 1 else 0)

/-- Zero, empty text and the empty list are false. -/
def isTruthy : Value → Bool
  | int n => n != 0
  | str text | sym text => text != ""
  | list items => !items.isEmpty
  | function _ => true

/-- The kind of a value, as messages name it. -/
def typeName : Value → String
  | int _ => "integer"
  | str _ => "string"
  | sym _ => "symbol"
  | list _ => "list"
  | function _ => "function"

def function? : Value → Option (Closure Value)
  | function f => some f
  | _ => none

/-- The integer that a value is or, for a string, spells. -/
def toInt64 : Value → Except Fault Int64
  | int n => .ok n
  | str text =>
    match Text.Decimal.int64? text.toList with
    | some n => .ok n
    | none => .error (.notNumeric text)
  | v => .error (.notAnInteger v.typeName)

mutual

/-- The text that `print` writes for a value. -/
def text : Value → String
  | int n => Text.Decimal.text n
  | str text | sym text => text
  | list items => "(" ++ " ".intercalate (texts items) ++ ")"
  | function _ => "#<function>"

def texts : List Value → List String
  | [] => []
  | v :: vs => text v :: texts vs

end

mutual

/-- Whether two values are equal: functions are equal if they are the same one. -/
def same : Value → Value → Bool
  | int a, int b => a == b
  | str a, str b => a == b
  | sym a, sym b => a == b
  | list as, list bs => sameAll as bs
  | function f, function g => f.stamp == g.stamp
  | _, _ => false

def sameAll : List Value → List Value → Bool
  | [], [] => true
  | a :: as, b :: bs => same a b && sameAll as bs
  | _, _ => false

end

mutual

/-- The data that an expression is when it is quoted. -/
def quoted : Expr → Value
  | .int n _ => .int n
  | .str text _ => .str text
  | .ident name _ => .sym name
  -- both ways to write a quote are the same data
  | .quote datum _ _ => .list [.sym "quote", quoted datum]
  | .list items _ => .list (quotedAll items)
  -- a `let` form is data as the list that it was written as
  | .letIn bindings body _ =>
    .list (.sym "let" :: .list (quotedBindings bindings) :: quotedAll body)

def quotedAll : List Expr → List Value
  | [] => []
  | e :: es => quoted e :: quotedAll es

def quotedBindings : List (LetBinding Expr) → List Value
  | [] => []
  | ⟨name, init, _⟩ :: bs => .list [.sym name, quoted init] :: quotedBindings bs

end

end Value

end TwinLisp
