import TwinLisp.Arena
import TwinLisp.Reader.State
import TwinLisp.Token.Scan

/-!
Reading into tables. Where the reader keeps expressions, this machine keeps numbers of nodes: a node is
added once its text is complete, when its children are in the tables already.
-/

namespace TwinLisp

namespace FlatReader

open Reader (Mode)

/-- An open form that waits for a node; what it has so far is kept in reverse. -/
inductive Hole
  | quote (mark : Span)
  | list (mode : Mode) (opening : Span) (items : List Nat)
  | longQuote (opening : Span)
  | init (opening : Span) (bindings : List (LetBinding Nat)) (paren : Span) (name : String)
  | body (opening : Span) (bindings : List (LetBinding Nat)) (items : List Nat)

/-- How the expression in the innermost of the holes is read. -/
def mode : List Hole → Mode
  | [] | .init .. :: _ | .body .. :: _ => .code
  | .quote _ :: _ | .longQuote _ :: _ => .datum
  | .list mode _ _ :: _ => mode

/-- What the next token has to be. -/
inductive Expected
  | expr
  | bindingList (opening : Span)
  | binding (opening : Span) (bindings : List (LetBinding Nat))
  | name (opening : Span) (bindings : List (LetBinding Nat)) (paren : Span)
  | bindingClose (opening : Span) (bindings : List (LetBinding Nat)) (paren : Span)
      (name : String) (init : Nat)
  | quoteClose (opening : Span) (datum : Nat)

/-- The tables after some tokens, and what has been read but is not below a node yet; holes are
innermost first, roots in reverse. -/
structure State where
  arena : Arena := {}
  expected : Expected := .expr
  holes : List Hole := []
  roots : List Nat := []

namespace State

/-- Adds a node and puts it where it belongs; with it an apostrophe is finished too. -/
def place (a : Arena) (roots : List Nat) (kind : NodeKind) (span : Span) (holes : List Hole) : State :=
  let (a, id) := a.push kind span
  match holes with
  | [] => ⟨a, .expr, [], id :: roots⟩
  | .quote mark :: holes => place a roots (.quote id .short) (mark.merge span) holes
  | .list mode opening items :: holes => ⟨a, .expr, .list mode opening (id :: items) :: holes, roots⟩
  | .longQuote opening :: holes => ⟨a, .quoteClose opening id, holes, roots⟩
  | .init opening bindings paren name :: holes =>
    ⟨a, .bindingClose opening bindings paren name id, holes, roots⟩
  | .body opening bindings items :: holes =>
    ⟨a, .expr, .body opening bindings (id :: items) :: holes, roots⟩

/-- Reads an identifier where an expression is expected; the name of a form is no node. -/
def readIdent (s : State) (name : String) (span : Span) : State :=
  match s.holes with
  | .list .code opening [] :: outer =>
    if name = "let" then { s with expected := .bindingList opening, holes := outer }
    else if name = "quote" then { s with holes := .longQuote opening :: outer }
    else place s.arena s.roots (.ident name) span s.holes
  | _ => place s.arena s.roots (.ident name) span s.holes

/-- Reads a closing parenthesis where an expression could stand: the runs of a form are added before its
node, and the bindings of a `let` form before its body. -/
def readClose (s : State) (span : Span) : Except SyntaxError State :=
  match s.holes with
  | [] | .quote _ :: _ => .error ⟨.unexpectedCloseParen, span⟩
  | .list _ opening items :: outer =>
    let (a, run) := s.arena.pushChildren items.reverse
    .ok (place a s.roots (.list run) (opening.merge span) outer)
  | .longQuote opening :: _ => .error ⟨.malformedQuote, opening⟩
  | .init opening _ _ _ :: _ => .error ⟨.malformedLet .noInitializer, opening⟩
  | .body opening _ [] :: _ => .error ⟨.malformedLet .emptyBody, opening⟩
  | .body opening bindings (id :: ids) :: outer =>
    let (a, bindingRun) := s.arena.pushBindings bindings
    let (a, bodyRun) := a.pushChildren (id :: ids).reverse
    .ok (place a s.roots (.letIn bindingRun bodyRun) (opening.merge span) outer)

def readExpr (s : State) (t : Token) : Except SyntaxError State :=
  match t.lexeme with
  | .int value => .ok (place s.arena s.roots (.int value) t.span s.holes)
  | .str text => .ok (place s.arena s.roots (.str text) t.span s.holes)
  | .ident name => .ok (s.readIdent name t.span)
  | .quoteMark => .ok { s with holes := .quote t.span :: s.holes }
  | .openParen => .ok { s with holes := .list (mode s.holes) t.span [] :: s.holes }
  | .closeParen => s.readClose t.span

def step (s : State) (t : Token) : Except SyntaxError State :=
  match s.expected with
  | .expr => s.readExpr t
  | .bindingList opening =>
    match t.lexeme with
    | .openParen => .ok { s with expected := .binding opening [] }
    | _ => .error ⟨.malformedLet .noBindingList, opening⟩
  | .binding opening bindings =>
    match t.lexeme with
    | .openParen => .ok { s with expected := .name opening bindings t.span }
    | .closeParen =>
      .ok { s with expected := .expr, holes := .body opening bindings.reverse [] :: s.holes }
    | _ => .error ⟨.malformedLet .notBinding, opening⟩
  | .name opening bindings paren =>
    match t.lexeme with
    | .ident name =>
      .ok { s with expected := .expr, holes := .init opening bindings paren name :: s.holes }
    | _ => .error ⟨.malformedLet .notName, opening⟩
  | .bindingClose opening bindings paren name init =>
    match t.lexeme with
    | .closeParen =>
      .ok { s with expected := .binding opening (⟨name, init, paren.merge t.span⟩ :: bindings) }
    | _ => .error ⟨.malformedLet .longBinding, opening⟩
  | .quoteClose opening datum =>
    match t.lexeme with
    | .closeParen =>
      .ok (place s.arena s.roots (.quote datum .long) (opening.merge t.span) s.holes)
    | _ => .error ⟨.malformedQuote, opening⟩

/-- Ends the reading of a text of `length` bytes: every form has to be closed. -/
def finish (s : State) (length : Nat) : Except SyntaxError FlatProgram :=
  match s.expected with
  | .expr =>
    match s.holes with
    | [] => .ok ⟨s.arena, s.roots.reverse⟩
    | .quote _ :: _ | .init .. :: _ => .error ⟨.unexpectedEnd, .ofOffsets length length⟩
    | .list _ opening _ :: _ | .longQuote opening :: _ | .body opening _ _ :: _ =>
      .error ⟨.unclosedList, opening⟩
  | .bindingList opening | .binding opening _ | .quoteClose opening _ =>
    .error ⟨.unclosedList, opening⟩
  | .name _ _ paren | .bindingClose _ _ paren _ _ => .error ⟨.unclosedList, paren⟩

end State

/-- The flat form of the program that tokens spell; `length` is where their text ends. -/
def readTokens (tokens : List Token) (length : Nat) : Except SyntaxError FlatProgram :=
  (tokens.foldlM State.step {}).bind (·.finish length)

end FlatReader

/-- The flat form of a source text, or the first fault in it. -/
def FlatProgram.read (source : String) : Except SyntaxError FlatProgram :=
  (Scan.tokens source).bind (FlatReader.readTokens · source.utf8ByteSize)

end TwinLisp
