import TwinLisp.Expr
import TwinLisp.SyntaxError
import TwinLisp.Token

/-! The reader as a machine: it takes one token at a time and keeps the forms that are still open. -/

namespace TwinLisp.Reader

/-- Whether `let` and `quote` are recognized at the head of a list. -/
inductive Mode
  | code
  | datum
deriving DecidableEq

/-- An open form that waits for an expression; what it has so far is kept in reverse. -/
inductive Hole
  | quote (mark : Span)
  | list (mode : Mode) (opening : Span) (items : List Expr)
  | longQuote (opening : Span)
  | init (opening : Span) (bindings : List (LetBinding Expr)) (paren : Span) (name : String)
  | body (opening : Span) (bindings : List (LetBinding Expr)) (items : List Expr)

namespace Hole

def mode : Hole → Mode
  | quote _ | longQuote _ => .datum
  | list mode _ _ => mode
  | init .. | body .. => .code

end Hole

/-- What the next token has to be. -/
inductive Expected
  | expr
  | bindingList (opening : Span)
  | binding (opening : Span) (bindings : List (LetBinding Expr))
  | name (opening : Span) (bindings : List (LetBinding Expr)) (paren : Span)
  | bindingClose (opening : Span) (bindings : List (LetBinding Expr)) (paren : Span)
      (name : String) (init : Expr)
  | quoteClose (opening : Span) (datum : Expr)

/-- The reader after some tokens; holes are innermost first, roots in reverse. -/
structure State where
  expected : Expected
  holes : List Hole
  roots : List Expr

namespace State

def initial : State := ⟨.expr, [], []⟩

/-- Puts a finished expression where it belongs; with it an apostrophe is finished too. -/
def place (roots : List Expr) (e : Expr) : List Hole → State
  | [] => ⟨.expr, [], e :: roots⟩
  | .quote mark :: holes => place roots (.quote e .short (mark.merge e.span)) holes
  | .list mode opening items :: holes => ⟨.expr, .list mode opening (e :: items) :: holes, roots⟩
  | .longQuote opening :: holes => ⟨.quoteClose opening e, holes, roots⟩
  | .init opening bindings paren name :: holes =>
    ⟨.bindingClose opening bindings paren name e, holes, roots⟩
  | .body opening bindings items :: holes =>
    ⟨.expr, .body opening bindings (e :: items) :: holes, roots⟩

def mode (holes : List Hole) : Mode :=
  match holes with
  | [] => .code
  | hole :: _ => hole.mode

def readIdent (roots : List Expr) (holes : List Hole) (name : String) (span : Span) : State :=
  match holes with
  -- in quoted data, or behind another expression, the words mean nothing special
  | .list .code opening [] :: outer =>
    if name = "let" then ⟨.bindingList opening, outer, roots⟩
    else if name = "quote" then ⟨.expr, .longQuote opening :: outer, roots⟩
    else place roots (.ident name span) holes
  | _ => place roots (.ident name span) holes

def readClose (roots : List Expr) (holes : List Hole) (span : Span) : Except SyntaxError State :=
  match holes with
  -- there is nothing to close, or an apostrophe is still without its datum
  | [] | .quote _ :: _ => .error ⟨.unexpectedCloseParen, span⟩
  | .list _ opening items :: outer =>
    .ok (place roots (.list items.reverse (opening.merge span)) outer)
  | .longQuote opening :: _ => .error ⟨.malformedQuote, opening⟩
  | .init opening _ _ _ :: _ => .error ⟨.malformedLet .noInitializer, opening⟩
  | .body opening _ [] :: _ => .error ⟨.malformedLet .emptyBody, opening⟩
  | .body opening bindings (e :: es) :: outer =>
    .ok (place roots (.letIn bindings (e :: es).reverse (opening.merge span)) outer)

def readExpr (roots : List Expr) (holes : List Hole) (t : Token) : Except SyntaxError State :=
  match t.lexeme with
  | .int value => .ok (place roots (.int value t.span) holes)
  | .str text => .ok (place roots (.str text t.span) holes)
  | .ident name => .ok (readIdent roots holes name t.span)
  | .quoteMark => .ok ⟨.expr, .quote t.span :: holes, roots⟩
  | .openParen => .ok ⟨.expr, .list (mode holes) t.span [] :: holes, roots⟩
  | .closeParen => readClose roots holes t.span

def step (s : State) (t : Token) : Except SyntaxError State :=
  match s.expected with
  | .expr => readExpr s.roots s.holes t
  | .bindingList opening =>
    match t.lexeme with
    | .openParen => .ok { s with expected := .binding opening [] }
    | _ => .error ⟨.malformedLet .noBindingList, opening⟩
  | .binding opening bindings =>
    match t.lexeme with
    | .openParen => .ok { s with expected := .name opening bindings t.span }
    | .closeParen => .ok ⟨.expr, .body opening bindings.reverse [] :: s.holes, s.roots⟩
    | _ => .error ⟨.malformedLet .notBinding, opening⟩
  | .name opening bindings paren =>
    match t.lexeme with
    | .ident name => .ok ⟨.expr, .init opening bindings paren name :: s.holes, s.roots⟩
    | _ => .error ⟨.malformedLet .notName, opening⟩
  | .bindingClose opening bindings paren name init =>
    match t.lexeme with
    | .closeParen =>
      .ok { s with expected := .binding opening (⟨name, init, paren.merge t.span⟩ :: bindings) }
    | _ => .error ⟨.malformedLet .longBinding, opening⟩
  | .quoteClose opening datum =>
    match t.lexeme with
    | .closeParen => .ok (place s.roots (.quote datum .long (opening.merge t.span)) s.holes)
    | _ => .error ⟨.malformedQuote, opening⟩

/-- Ends the reading of a text of `length` bytes: every form has to be closed. -/
def finish (s : State) (length : Nat) : Except SyntaxError (List Expr) :=
  match s.expected with
  | .expr =>
    match s.holes with
    | [] => .ok s.roots.reverse
    -- an expression is missing: the fault is where it should have begun, behind all of the text
    | .quote _ :: _ | .init .. :: _ => .error ⟨.unexpectedEnd, .ofOffsets length length⟩
    -- else the innermost open parenthesis is to blame
    | .list _ opening _ :: _ | .longQuote opening :: _ | .body opening _ _ :: _ =>
      .error ⟨.unclosedList, opening⟩
  | .bindingList opening | .binding opening _ | .quoteClose opening _ =>
    .error ⟨.unclosedList, opening⟩
  -- which here is that of a binding
  | .name _ _ paren | .bindingClose _ _ paren _ _ => .error ⟨.unclosedList, paren⟩

end State

end TwinLisp.Reader
