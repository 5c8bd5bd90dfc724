import TwinLisp.Span

/-! Expressions as they are read: every special form but `let` and `quote` is a plain list. -/

namespace TwinLisp

/-- How quoted data was written: with an apostrophe, or as a `quote` list. -/
inductive QuoteStyle
  | short
  | long
deriving DecidableEq

/-- A name of a `let` form with what it starts from. -/
structure LetBinding (α : Type) where
  name : String
  init : α
  span : Span
deriving DecidableEq

/-- An expression; every node knows its place in the source. -/
inductive Expr
  | int (value : Int64) (span : Span)
  | str (text : String) (span : Span)
  | ident (name : String) (span : Span)
  | quote (datum : Expr) (style : QuoteStyle) (span : Span)
  | list (items : List Expr) (span : Span)
  | letIn (bindings : List (LetBinding Expr)) (body : List Expr) (span : Span)

namespace Expr

instance : Inhabited Expr := ⟨.list [] ⟨0, 0⟩⟩

def span : Expr → Span
  | int _ span | str _ span | ident _ span | quote _ _ span | list _ span | letIn _ _ span => span

def ident? : Expr → Option String
  | ident name _ => some name
  | _ => none

def items? : Expr → Option (List Expr)
  | list items _ => some items
  | _ => none

def names? (e : Expr) : Option (List String) :=
  e.items?.bind (·.mapM ident?)

end Expr

end TwinLisp
