import TwinLisp.Proofs.Reader.Datum
import TwinLisp.Proofs.Reader.Extension

/-!
Reading up to quoting. Two states of the reader are alike if what they hold is the same data; the same
tokens, wherever they stand, lead from them to states that are alike again, and so to programs that are
the same data.
-/

namespace TwinLisp

namespace Value

variable {e e' : Expr} {es es' : List Expr} {bs bs' : List (LetBinding Expr)}

theorem quotedAll_eq_map (es : List Expr) : quotedAll es = es.map quoted := by
  induction es with
  | nil => rfl
  | cons e es ih => rw [quotedAll, List.map_cons, ih]

theorem quotedBindings_eq_map (bs : List (LetBinding Expr)) :
    quotedBindings bs = bs.map fun b => .list [.sym b.name, quoted b.init] := by
  induction bs with
  | nil => rfl
  | cons b bs ih => rw [quotedBindings, List.map_cons, ih]

/-- A quotation is the same datum in whichever style it is written. -/
theorem quoted_quote_congr (same : quoted e' = quoted e) (style style' : QuoteStyle)
    (span span' : Span) : quoted (.quote e' style' span') = quoted (.quote e style span) := by
  rw [quoted, quoted, same]

theorem quotedAll_cons_congr (first : quoted e' = quoted e) (rest : quotedAll es' = quotedAll es) :
    quotedAll (e' :: es') = quotedAll (e :: es) := by
  rw [quotedAll, quotedAll, first, rest]

/-- What quotes to no data is no expression. -/
theorem eq_nil_of_quotedAll (same : quotedAll es = quotedAll []) : es = [] := by
  rw [quotedAll_eq_map] at same
  exact List.map_eq_nil_iff.mp same

/-- Lists with the same data have elements with the same data. -/
theorem eq_cons_of_quotedAll (same : quotedAll es' = quotedAll (e :: es)) :
    ∃ e' rest, es' = e' :: rest ∧ quoted e' = quoted e ∧ quotedAll rest = quotedAll es := by
  rw [quotedAll_eq_map, quotedAll_eq_map] at same
  obtain ⟨e', rest, rfl, equal, others⟩ := List.map_eq_cons_iff.mp same
  refine ⟨e', rest, rfl, equal, ?_⟩
  rw [quotedAll_eq_map, quotedAll_eq_map, others]

theorem eq_singleton_of_quotedAll (same : quotedAll es = quotedAll [e]) :
    ∃ e', es = [e'] ∧ quoted e' = quoted e := by
  obtain ⟨e', rest, rfl, equal, none⟩ := eq_cons_of_quotedAll same
  obtain rfl := eq_nil_of_quotedAll none
  exact ⟨e', rfl, equal⟩

theorem quotedAll_reverse_congr (same : quotedAll es' = quotedAll es) :
    quotedAll es'.reverse = quotedAll es.reverse := by
  rw [quotedAll_eq_map, quotedAll_eq_map] at same ⊢
  rw [List.map_reverse, List.map_reverse, same]

theorem quotedBindings_reverse_congr (same : quotedBindings bs' = quotedBindings bs) :
    quotedBindings bs'.reverse = quotedBindings bs.reverse := by
  rw [quotedBindings_eq_map, quotedBindings_eq_map] at same ⊢
  rw [List.map_reverse, List.map_reverse, same]

end Value

namespace Reader

/-- Holes for the same, in forms that hold the same data so far. -/
inductive Hole.Alike : Hole → Hole → Prop
  | quote (mark mark' : Span) : Alike (.quote mark) (.quote mark')
  | list {mode opening opening' items items'}
    (same : Value.quotedAll items' = Value.quotedAll items) :
    Alike (.list mode opening items) (.list mode opening' items')
  | longQuote (opening opening' : Span) : Alike (.longQuote opening) (.longQuote opening')
  | init {opening opening' bindings bindings' paren paren' name}
    (bound : Value.quotedBindings bindings' = Value.quotedBindings bindings) :
    Alike (.init opening bindings paren name) (.init opening' bindings' paren' name)
  | body {opening opening' bindings bindings' items items'}
    (bound : Value.quotedBindings bindings' = Value.quotedBindings bindings)
    (same : Value.quotedAll items' = Value.quotedAll items) :
    Alike (.body opening bindings items) (.body opening' bindings' items')

/-- The same is expected, in forms that hold the same data so far. -/
inductive Expected.Alike : Expected → Expected → Prop
  | expr : Alike .expr .expr
  | bindingList (opening opening' : Span) : Alike (.bindingList opening) (.bindingList opening')
  | binding {opening opening' bindings bindings'}
    (bound : Value.quotedBindings bindings' = Value.quotedBindings bindings) :
    Alike (.binding opening bindings) (.binding opening' bindings')
  | name {opening opening' bindings bindings' paren paren'}
    (bound : Value.quotedBindings bindings' = Value.quotedBindings bindings) :
    Alike (.name opening bindings paren) (.name opening' bindings' paren')
  | bindingClose {opening opening' bindings bindings' paren paren' name init init'}
    (bound : Value.quotedBindings bindings' = Value.quotedBindings bindings)
    (same : Value.quoted init' = Value.quoted init) :
    Alike (.bindingClose opening bindings paren name init)
      (.bindingClose opening' bindings' paren' name init')
  | quoteClose {opening opening' datum datum'} (same : Value.quoted datum' = Value.quoted datum) :
    Alike (.quoteClose opening datum) (.quoteClose opening' datum')

/-- States that hold the same data and go on in the same way. -/
structure State.Alike (s s' : State) : Prop where
  expected : s.expected.Alike s'.expected
  holes : List.Forall₂ Hole.Alike s.holes s'.holes
  roots : Value.quotedAll s'.roots = Value.quotedAll s.roots

namespace State

variable {s s' u : State} {t t' : Token} {ts ts' : List Token} {e e' : Expr}
  {holes holes' : List Hole} {roots roots' : List Expr}

theorem alike_refl (s : State) : s.Alike s where
  expected := by
    cases s.expected with
    | expr => exact .expr
    | bindingList opening => exact .bindingList opening opening
    | binding => exact .binding rfl
    | name => exact .name rfl
    | bindingClose => exact .bindingClose rfl rfl
    | quoteClose => exact .quoteClose rfl
  holes := by
    refine List.forall₂_same.mpr fun hole _ => ?_
    cases hole with
    | quote mark => exact .quote mark mark
    | list => exact .list rfl
    | longQuote opening => exact .longQuote opening opening
    | init => exact .init rfl
    | body => exact .body rfl rfl
  roots := rfl

/-- Holes that are alike are read in the same mode. -/
theorem mode_alike (alike : List.Forall₂ Hole.Alike holes holes') :
    State.mode holes' = State.mode holes := by
  cases alike with
  | nil => rfl
  | cons first _ => cases first <;> rfl

/-- The same data goes to the same place. -/
theorem alike_place (same : Value.quoted e' = Value.quoted e)
    (alike : List.Forall₂ Hole.Alike holes holes')
    (equal : Value.quotedAll roots' = Value.quotedAll roots) :
    (place roots e holes).Alike (place roots' e' holes') := by
  induction alike generalizing e e' with
  | nil => exact ⟨.expr, .nil, Value.quotedAll_cons_congr same equal⟩
  | cons first rest ih =>
    cases first with
    -- with the datum the quotation is complete, and goes to the next hole itself
    | quote mark mark' => exact ih (Value.quoted_quote_congr same ..)
    | list items => exact ⟨.expr, .cons (.list (Value.quotedAll_cons_congr same items)) rest, equal⟩
    | longQuote opening opening' => exact ⟨.quoteClose same, rest, equal⟩
    | init bound => exact ⟨.bindingClose bound same, rest, equal⟩
    | body bound items =>
      exact ⟨.expr, .cons (.body bound (Value.quotedAll_cons_congr same items)) rest, equal⟩

/-- A name is placed alike: whether it is the head of a form is seen from the holes. -/
theorem alike_readIdent (alike : List.Forall₂ Hole.Alike holes holes')
    (equal : Value.quotedAll roots' = Value.quotedAll roots) (name : String) (span span' : Span) :
    (readIdent roots holes name span).Alike (readIdent roots' holes' name span') := by
  have placed : (place roots (.ident name span) holes).Alike
      (place roots' (.ident name span') holes') := alike_place rfl alike equal
  cases alike with
  | nil => exact placed
  | cons first rest =>
    cases first with
    | @list mode opening opening' items items' same =>
      cases mode with
      | datum => exact placed
      | code =>
        cases items with
        | cons e es =>
          obtain ⟨e', es', rfl, -⟩ := Value.eq_cons_of_quotedAll same
          exact placed
        | nil =>
          -- the head of a list of code, which can open a form
          obtain rfl := Value.eq_nil_of_quotedAll same
          unfold readIdent
          dsimp only
          by_cases isLet : name = "let"
          · rw [if_pos isLet, if_pos isLet]
            exact ⟨.bindingList opening opening', rest, equal⟩
          · rw [if_neg isLet, if_neg isLet]
            by_cases isQuote : name = "quote"
            · rw [if_pos isQuote, if_pos isQuote]
              exact ⟨.expr, .cons (.longQuote opening opening') rest, equal⟩
            · rw [if_neg isQuote, if_neg isQuote]
              exact placed
    | _ => exact placed

theorem alike_readClose (alike : List.Forall₂ Hole.Alike holes holes')
    (equal : Value.quotedAll roots' = Value.quotedAll roots) {span : Span}
    (h : readClose roots holes span = .ok u) (span' : Span) :
    ∃ u', readClose roots' holes' span' = .ok u' ∧ u.Alike u' := by
  cases alike with
  | nil => cases h
  | cons first rest =>
    cases first with
    | @list mode opening opening' items items' same =>
      cases h
      refine ⟨_, rfl, alike_place ?_ rest equal⟩
      rw [Value.quoted, Value.quoted, Value.quotedAll_reverse_congr same]
    -- a body that is closed has an expression, and so has the other one
    | @body opening opening' bindings bindings' items items' bound same =>
      cases items with
      | nil => cases h
      | cons e es =>
        obtain ⟨e', es', rfl, -⟩ := Value.eq_cons_of_quotedAll same
        cases h
        refine ⟨_, rfl, alike_place ?_ rest equal⟩
        rw [Value.quoted, Value.quoted, Value.quotedAll_reverse_congr same, bound]
    | _ => cases h

/-- The token decides what is read, and its position does not. -/
theorem alike_readExpr (alike : List.Forall₂ Hole.Alike holes holes')
    (equal : Value.quotedAll roots' = Value.quotedAll roots) (same : t'.lexeme = t.lexeme)
    (h : readExpr roots holes t = .ok u) :
    ∃ u', readExpr roots' holes' t' = .ok u' ∧ u.Alike u' := by
  unfold readExpr at h ⊢
  rw [same]
  cases lexeme : t.lexeme with
  | closeParen =>
    simp only [lexeme] at h
    exact alike_readClose alike equal h t'.span
  | openParen =>
    simp only [lexeme] at h
    cases h
    refine ⟨_, rfl, .expr, ?_, equal⟩
    -- the new list is code or data as the holes around it are, on both sides
    rw [mode_alike alike]
    exact .cons (.list rfl) alike
  | quoteMark =>
    simp only [lexeme] at h
    cases h
    exact ⟨_, rfl, .expr, .cons (.quote t.span t'.span) alike, equal⟩
  | int n =>
    simp only [lexeme] at h
    cases h
    exact ⟨_, rfl, alike_place rfl alike equal⟩
  | str text =>
    simp only [lexeme] at h
    cases h
    exact ⟨_, rfl, alike_place rfl alike equal⟩
  | ident name =>
    simp only [lexeme] at h
    cases h
    exact ⟨_, rfl, alike_readIdent alike equal name t.span t'.span⟩

/-- The same token leads from states that are alike to states that are alike. -/
theorem alike_step (alike : s.Alike s') (same : t'.lexeme = t.lexeme) (h : s.step t = .ok u) :
    ∃ u', s'.step t' = .ok u' ∧ u.Alike u' := by
  obtain ⟨expected, holes, roots⟩ := s
  obtain ⟨expected', holes', roots'⟩ := s'
  obtain ⟨awaits, alike, equal⟩ := alike
  dsimp only at awaits alike equal
  unfold step at h ⊢
  cases awaits with
  | expr => exact alike_readExpr alike equal same h
  | bindingList opening opening' =>
    dsimp only at h ⊢
    rw [same]
    split at h
    next =>
      cases h
      exact ⟨_, rfl, .binding rfl, alike, equal⟩
    next => cases h
  | binding bound =>
    dsimp only at h ⊢
    rw [same]
    split at h
    next =>
      cases h
      exact ⟨_, rfl, .name bound, alike, equal⟩
    next =>
      cases h
      -- bindings are collected backwards
      have reversed := Value.quotedBindings_reverse_congr bound
      exact ⟨_, rfl, .expr, .cons (.body reversed rfl) alike, equal⟩
    next => cases h
  | name bound =>
    dsimp only at h ⊢
    rw [same]
    split at h
    next =>
      cases h
      exact ⟨_, rfl, .expr, .cons (.init bound) alike, equal⟩
    next => cases h
  | bindingClose bound init =>
    dsimp only at h ⊢
    rw [same]
    split at h
    next =>
      cases h
      refine ⟨_, rfl, .binding ?_, alike, equal⟩
      rw [Value.quotedBindings, Value.quotedBindings, init, bound]
    next => cases h
  -- whatever its style, the quotation is of the same datum
  | quoteClose datum =>
    dsimp only at h ⊢
    rw [same]
    split at h
    next =>
      cases h
      exact ⟨_, rfl, alike_place (Value.quoted_quote_congr datum ..) alike equal⟩
    next => cases h

theorem alike_steps (alike : s.Alike s') (same : Displaced ts ts') (h : s.steps ts = .ok u) :
    ∃ u', s'.steps ts' = .ok u' ∧ u.Alike u' := by
  induction same generalizing s s' with
  | nil =>
    cases h
    exact ⟨s', rfl, alike⟩
  -- a token that is read on one side is read on the other
  | @cons t t' ts ts' here rest ih =>
    rw [steps_cons] at h
    cases read : s.step t with
    | error e =>
      rw [read] at h
      cases h
    | ok next =>
      rw [read] at h
      obtain ⟨next', read', alike'⟩ := alike_step alike here read
      obtain ⟨u', read'', alike''⟩ := ih alike' h
      rw [steps_cons, read']
      exact ⟨u', read'', alike''⟩

/-- States that are alike end with programs that are the same data. -/
theorem alike_finish (alike : s.Alike s') {length : Nat} {program : List Expr}
    (h : s.finish length = .ok program) (length' : Nat) :
    ∃ program', s'.finish length' = .ok program' ∧
      Value.quotedAll program' = Value.quotedAll program := by
  obtain ⟨expected, holes, roots⟩ := s
  obtain ⟨expected', holes', roots'⟩ := s'
  obtain ⟨awaits, alike, equal⟩ := alike
  dsimp only at awaits alike equal
  cases awaits with
  | expr =>
    cases alike with
    | nil =>
      cases h
      exact ⟨_, rfl, Value.quotedAll_reverse_congr equal⟩
    | cons first _ => cases first <;> cases h
  | _ => cases h

/-- The same tokens lead from states that are alike to programs that are the same data. -/
theorem alike_readAll (alike : s.Alike s') (same : Displaced ts ts') {length : Nat}
    {program : List Expr} (h : s.readAll ts length = .ok program) (length' : Nat) :
    ∃ program', s'.readAll ts' length' = .ok program' ∧
      Value.quotedAll program' = Value.quotedAll program := by
  unfold readAll at h ⊢
  cases read : s.steps ts with
  | error e =>
    rw [read] at h
    cases h
  | ok u =>
    rw [read] at h
    obtain ⟨u', read', alike'⟩ := alike_steps alike same read
    rw [read']
    exact alike_finish alike' h length'

/-- An apostrophe can only stand where an expression is expected. -/
theorem expected_of_quoteMark (mark : t.lexeme = .quoteMark) (h : s.step t = .ok u) :
    s.expected = .expr := by
  unfold step at h
  cases awaits : s.expected with
  | expr => rfl
  | _ => simp [awaits, mark] at h

end State

open State

variable {mode : Mode} {ts ts' us us' xs : List Token} {mark opening word closing : Token} {d : Expr}

/-- An expression is read to the end and put into the hole that waits for it. -/
theorem Derives.steps_eq {holes : List Hole} {e : Expr} (h : Derives (State.mode holes) ts e)
    (roots : List Expr) (fits : Fits holes ts) :
    State.steps ⟨.expr, holes, roots⟩ ts = .ok (place roots e holes) := by
  have run := h.steps roots holes [] rfl fits
  rwa [List.append_nil] at run

theorem fits_of_no_ident {t : Token} (holes : List Hole) (ts : List Token)
    (other : ∀ name, t.lexeme ≠ .ident name) : Fits holes (t :: ts) :=
  fun _ _ _ => plain_cons other

/-- In code and in data alike, a `quote` list is what an apostrophe makes of the datum in it. -/
theorem derives_respelled (mode : Mode) (datum : Derives .datum ts d) (same : Displaced ts ts')
    (opened : opening.lexeme = .openParen) (named : word.lexeme = .ident "quote")
    (closed : closing.lexeme = .closeParen) (style : QuoteStyle) (span : Span) :
    ∃ q, Derives mode (opening :: (word :: ts') ++ [closing]) q ∧
      Value.quoted q = Value.quoted (.quote d style span) := by
  obtain ⟨d', derived, equal⟩ := datum.as_datum same
  cases mode with
  | code => exact ⟨_, .longQuoted opened named derived closed, Value.quoted_quote_congr equal ..⟩
  | datum =>
    have items := DerivesAll.cons (.ident named) (.singleton derived)
    refine ⟨_, derives_datum_list opened items closed, ?_⟩
    simp only [Value.quoted, Value.quotedAll, equal]

/-- An apostrophe and its datum give way to a `quote` list: what is read is the same data. -/
theorem readTokens_respelled (apostrophe : mark.lexeme = .quoteMark) (datum : Derives .datum ts d)
    (same : Displaced ts ts') (opened : opening.lexeme = .openParen)
    (named : word.lexeme = .ident "quote") (closed : closing.lexeme = .closeParen)
    (rest : Displaced us us') {length : Nat} {program : List Expr}
    (read : readTokens (xs ++ (mark :: ts ++ us)) length = .ok program) (length' : Nat) :
    ∃ program', readTokens (xs ++ (opening :: (word :: ts') ++ [closing] ++ us')) length'
        = .ok program' ∧ Value.quotedAll program' = Value.quotedAll program := by
  change State.initial.readAll _ _ = _ at read
  change ∃ program', State.initial.readAll _ _ = _ ∧ _
  -- both texts are read alike up to the apostrophe, where an expression is expected
  cases before : State.initial.steps xs with
  | error e =>
    rw [readAll_append_error before] at read
    cases read
  | ok s =>
    rw [readAll_append_ok before] at read ⊢
    obtain ⟨expected, holes, roots⟩ := s
    -- an apostrophe is refused anywhere else
    obtain rfl : expected = .expr := by
      cases next : State.step ⟨expected, holes, roots⟩ mark with
      | error e =>
        unfold readAll at read
        rw [List.cons_append, steps_cons, next] at read
        cases read
      | ok u => exact expected_of_quoteMark apostrophe next
    obtain ⟨q, derived, equal⟩ := derives_respelled (State.mode holes) datum same opened named closed
      .short (mark.span.merge d.span)
    have short := (Derives.quoted apostrophe datum).steps_eq roots
      (fits_of_no_ident holes ts (by simp [apostrophe]))
    have long := derived.steps_eq roots (fits_of_no_ident holes _ (by simp [opened]))
    -- the quotations are the same data, and they go to the same place
    rw [readAll_append_ok short] at read
    rw [readAll_append_ok long]
    exact alike_readAll (alike_place equal (alike_refl ⟨.expr, holes, roots⟩).holes rfl) rest read _

end Reader

end TwinLisp
