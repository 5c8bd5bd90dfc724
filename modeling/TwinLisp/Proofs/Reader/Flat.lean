import TwinLisp.Proofs.Arena.Append
import TwinLisp.Reader
import TwinLisp.Reader.Flat

/-!
Reading into tables is reading, with what has been read added to tables. A state of the reader has its
tables: they hold what is complete, in the order in which it is in the text.
-/

namespace TwinLisp

namespace FlatReader

/-- A hole, with its form added to tables as far as it is read. -/
def holeOf (a : Arena) : Reader.Hole → Arena × Hole
  | .quote mark => (a, .quote mark)
  | .list mode opening items =>
    let (a, ids) := a.addAll items.reverse
    (a, .list mode opening ids.reverse)
  | .longQuote opening => (a, .longQuote opening)
  | .init opening bindings paren name =>
    let (a, bs) := a.addBindings bindings.reverse
    (a, .init opening bs.reverse paren name)
  | .body opening bindings items =>
    let (a, bs) := a.addBindings bindings
    let (a, ids) := a.addAll items.reverse
    (a, .body opening bs ids.reverse)

/-- Holes in order; what is read of an outer form is before the inner ones. -/
def holesOf (a : Arena) : List Reader.Hole → Arena × List Hole
  | [] => (a, [])
  | hole :: outer =>
    let (a, outer) := holesOf a outer
    let (a, hole) := holeOf a hole
    (a, hole :: outer)

/-- What is expected, with its form added to tables as far as it is read. -/
def expectedOf (a : Arena) : Reader.Expected → Arena × Expected
  | .expr => (a, .expr)
  | .bindingList opening => (a, .bindingList opening)
  | .binding opening bindings =>
    let (a, bs) := a.addBindings bindings.reverse
    (a, .binding opening bs.reverse)
  | .name opening bindings paren =>
    let (a, bs) := a.addBindings bindings.reverse
    (a, .name opening bs.reverse paren)
  | .bindingClose opening bindings paren name init =>
    let (a, bs) := a.addBindings bindings.reverse
    let (a, id) := a.add init
    (a, .bindingClose opening bs.reverse paren name id)
  | .quoteClose opening datum =>
    let (a, id) := a.add datum
    (a, .quoteClose opening id)

/-- A state of the reader, with all that is read added to tables. -/
def stateOf (s : Reader.State) : State :=
  let (a, roots) := Arena.addAll {} s.roots.reverse
  let (a, holes) := holesOf a s.holes
  let (a, expected) := expectedOf a s.expected
  ⟨a, expected, holes, roots.reverse⟩

theorem mode_holesOf (a : Arena) (holes : List Reader.Hole) :
    mode (holesOf a holes).2 = Reader.State.mode holes := by
  cases holes with
  | nil => rfl
  | cons hole holes => cases hole <;> rfl

/-- The number of what has been read last in a form comes first. -/
theorem reverse_addAll (a : Arena) (e : Expr) (es : List Expr) : (a.addAll (e :: es).reverse).2.reverse
    = ((a.addAll es.reverse).1.add e).2 :: (a.addAll es.reverse).2.reverse := by
  simp [Arena.addAll_of_append, Arena.addAll]

/-! ### One token -/

variable {roots : List Expr} {holes : List Reader.Hole}

theorem stateOf_expr (holes : List Reader.Hole) (roots : List Expr) : stateOf ⟨.expr, holes, roots⟩ =
    ⟨(holesOf (Arena.addAll {} roots.reverse).1 holes).1, .expr,
      (holesOf (Arena.addAll {} roots.reverse).1 holes).2, (Arena.addAll {} roots.reverse).2.reverse⟩ :=
  rfl

/-- An expression goes to its place with its last node. -/
theorem place_stateOf (roots : List Expr) (holes : List Reader.Hole) (e : Expr) {a : Arena}
    {kind : NodeKind}
    (last : (stateOf ⟨.expr, holes, roots⟩).arena.add e = a.push kind e.span) :
    State.place a (stateOf ⟨.expr, holes, roots⟩).roots kind e.span (stateOf ⟨.expr, holes, roots⟩).holes
      = stateOf (.place roots e holes) := by
  simp only [stateOf_expr] at last ⊢
  induction holes generalizing e a kind with
  | nil =>
    simp only [holesOf] at last ⊢
    rw [State.place, ← last, Reader.State.place]
    simp [stateOf_expr, holesOf, Arena.addAll_of_append, Arena.addAll]
  | cons hole outer ih =>
    simp only [holesOf] at last ⊢
    cases hole with
    | quote mark =>
      simp only [holeOf] at last ⊢
      -- with the node of the datum in the tables, the next node is that of the quotation
      rw [State.place, ← last, Reader.State.place, ← ih _ rfl, Expr.span]
    | _ =>
      simp only [holeOf] at last ⊢
      rw [State.place, ← last, Reader.State.place]
      simp [stateOf, holesOf, holeOf, expectedOf, Arena.addAll_of_append, Arena.addAll]

/-- Whether a list has elements already is told by their numbers as well. -/
theorem readIdent_stateOf (name : String) (span : Span) :
    (stateOf ⟨.expr, holes, roots⟩).readIdent name span
      = stateOf (.readIdent roots holes name span) := by
  have plain := place_stateOf roots holes (.ident name span) rfl
  cases holes with
  | nil => exact plain
  | cons hole outer =>
    -- only the first word in a list of code can open a form
    cases hole with
    | list mode opening items =>
      cases mode with
      | datum => exact plain
      | code =>
        cases items with
        | nil =>
          by_cases isLet : name = "let"
          · rw [Reader.State.readIdent, if_pos isLet]
            exact if_pos isLet
          · by_cases isQuote : name = "quote"
            · rw [Reader.State.readIdent, if_neg isLet, if_pos isQuote]
              exact (if_neg isLet).trans (if_pos isQuote)
            · rw [Reader.State.readIdent, if_neg isLet, if_neg isQuote, ← plain]
              exact (if_neg isLet).trans (if_neg isQuote)
        | cons e es =>
          -- a list with elements is not empty in the tables either
          simp only [State.readIdent, stateOf_expr, holesOf, holeOf, reverse_addAll]
          simp only [← reverse_addAll]
          exact plain
    | _ => exact plain

/-- The runs of a form are added when the form is closed, and its node is the last one. -/
theorem readClose_stateOf (span : Span) : (stateOf ⟨.expr, holes, roots⟩).readClose span
    = (Reader.State.readClose roots holes span).map stateOf := by
  cases holes with
  | nil => rfl
  | cons hole outer =>
    -- a list and a body are closed by a parenthesis, all other holes refuse it on both sides
    cases hole with
    | list mode opening items =>
      simp only [State.readClose, stateOf_expr, holesOf, holeOf, List.reverse_reverse]
      exact congrArg Except.ok (place_stateOf _ _ (.list items.reverse (opening.merge span)) rfl)
    | body opening bindings items =>
      cases items with
      | nil => rfl
      | cons e es =>
        simp only [State.readClose, stateOf_expr, holesOf, holeOf, reverse_addAll]
        simp only [← reverse_addAll, List.reverse_reverse]
        exact congrArg Except.ok
          (place_stateOf _ _ (.letIn bindings (e :: es).reverse (opening.merge span)) rfl)
    | _ => rfl

/-- The token that is read decides alike on the tables and on the trees. -/
theorem readExpr_stateOf (t : Token) : (stateOf ⟨.expr, holes, roots⟩).readExpr t
    = (Reader.State.readExpr roots holes t).map stateOf := by
  obtain ⟨lexeme, span⟩ := t
  cases lexeme with
  | int value => exact congrArg Except.ok (place_stateOf _ _ (.int value span) rfl)
  | str text => exact congrArg Except.ok (place_stateOf _ _ (.str text span) rfl)
  | ident name => exact congrArg Except.ok (readIdent_stateOf name span)
  | quoteMark => rfl
  | openParen =>
    simp only [State.readExpr, stateOf_expr, mode_holesOf]
    rfl
  | closeParen => exact readClose_stateOf span

/-- A token does to the tables what it does to the expressions. -/
theorem step_stateOf (s : Reader.State) (t : Token) : (stateOf s).step t = (s.step t).map stateOf := by
  obtain ⟨expected, holes, roots⟩ := s
  cases expected with
  | expr => exact readExpr_stateOf t
  | bindingList opening =>
    obtain ⟨lexeme, span⟩ := t
    cases lexeme <;> rfl
  | binding opening bindings =>
    obtain ⟨lexeme, span⟩ := t
    cases lexeme with
    | closeParen =>
      simp only [State.step, Reader.State.step, Except.map, stateOf, expectedOf, List.reverse_reverse]
      rfl
    | _ => rfl
  | name opening bindings paren =>
    obtain ⟨lexeme, span⟩ := t
    cases lexeme <;> rfl
  | bindingClose opening bindings paren name init =>
    obtain ⟨lexeme, span⟩ := t
    cases lexeme with
    | closeParen =>
      simp [stateOf, expectedOf, State.step, Reader.State.step, Except.map,
        Arena.addBindings_of_append, Arena.addBindings]
    | _ => rfl
  -- the quotation is a node only now, with the span of the whole list
  | quoteClose opening datum =>
    obtain ⟨lexeme, span⟩ := t
    cases lexeme with
    | closeParen =>
      exact congrArg Except.ok (place_stateOf _ _ (.quote datum .long (opening.merge span)) rfl)
    | _ => rfl

/-- By induction on the tokens. -/
theorem steps_stateOf (s : Reader.State) (ts : List Token) :
    ts.foldlM State.step (stateOf s) = (ts.foldlM Reader.State.step s).map stateOf := by
  induction ts generalizing s with
  | nil => rfl
  | cons t ts ih =>
    rw [List.foldlM_cons, List.foldlM_cons, step_stateOf]
    cases s.step t with
    | error fault => rfl
    | ok s' => exact ih s'

theorem finish_stateOf (s : Reader.State) (length : Nat) :
    (stateOf s).finish length = (s.finish length).map FlatProgram.ofExprs := by
  obtain ⟨expected, holes, roots⟩ := s
  cases expected with
  | expr =>
    cases holes with
    | nil =>
      simp only [stateOf_expr, holesOf, State.finish, List.reverse_reverse]
      rfl
    | cons hole outer => cases hole <;> rfl
  | _ => rfl

/-- Reading into the tables is reading the trees and laying them out. -/
theorem readTokens_eq (ts : List Token) (length : Nat) :
    readTokens ts length = (Reader.readTokens ts length).map FlatProgram.ofExprs := by
  have steps : ts.foldlM State.step {} = (ts.foldlM Reader.State.step .initial).map stateOf :=
    steps_stateOf .initial ts
  rw [readTokens, steps, Reader.readTokens]
  cases ts.foldlM Reader.State.step .initial with
  | error fault => rfl
  | ok s => exact finish_stateOf s length

end FlatReader

/-- Tables that are filled while a text is read are those of the expressions that are read. -/
theorem FlatProgram.read_eq (source : String) :
    FlatProgram.read source = (Reader.read source).map FlatProgram.ofExprs := by
  rw [FlatProgram.read, Reader.read]
  cases Scan.tokens source with
  | error fault => rfl
  | ok tokens => exact FlatReader.readTokens_eq tokens source.utf8ByteSize

end TwinLisp
