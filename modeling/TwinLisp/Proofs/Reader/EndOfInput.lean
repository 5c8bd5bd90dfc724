import TwinLisp.Proofs.Reader.Alike

/-!
Tokens that run out. What is reported then: the end of the text behind an apostrophe and behind the name
of a binding, else an opening parenthesis that no parenthesis closes.
-/

namespace TwinLisp.Reader

open State

/-- Every parenthesis among the tokens has its partner. -/
inductive Balanced : List Token → Prop
  | nil : Balanced []
  | other {t ts} (opens : t.lexeme ≠ .openParen) (closes : t.lexeme ≠ .closeParen)
    (rest : Balanced ts) : Balanced (t :: ts)
  | parens {opening ts closing us} (opened : opening.lexeme = .openParen) (inner : Balanced ts)
    (closed : closing.lexeme = .closeParen) (rest : Balanced us) :
    Balanced (opening :: ts ++ closing :: us)

/-- The parenthesis is opened among the tokens, and none of those behind it closes it. -/
def Unclosed (ts : List Token) (opening : Token) : Prop :=
  ∃ before behind, ts = before ++ opening :: behind ∧ opening.lexeme = .openParen ∧
    ∀ inner closing rest, behind = inner ++ closing :: rest → closing.lexeme = .closeParen →
      ¬Balanced inner

/-- The tokens break off behind the name of a binding, where its initial value has to come. -/
def AwaitsInit (ts : List Token) : Prop :=
  ∃ opening bindings paren name holes roots,
    Context (.init opening bindings paren name :: holes) roots ts

/-- Behind so many open parentheses, the tokens close none but these and their own. -/
def Inside : Nat → List Token → Prop
  | _, [] => True
  | depth, t :: ts =>
    match t.lexeme, depth with
    | .openParen, _ => Inside (depth + 1) ts
    | .closeParen, 0 => False
    | .closeParen, outer + 1 => Inside outer ts
    | _, _ => Inside depth ts

variable {mode : Mode} {ts us behind : List Token} {t opening closing : Token} {depth : Nat}
  {lexeme : Lexeme} {s : State} {holes : List Hole} {roots : List Expr} {length : Nat}
  {error : SyntaxError}

theorem inside_nil : Inside depth [] := by
  unfold Inside
  trivial

/-- An opening parenthesis leads one level down. -/
theorem inside_opening (opened : t.lexeme = .openParen) :
    Inside depth (t :: ts) ↔ Inside (depth + 1) ts := by
  simp only [Inside, opened]

theorem inside_closing (closed : t.lexeme = .closeParen) :
    Inside (depth + 1) (t :: ts) ↔ Inside depth ts := by
  simp only [Inside, closed]

/-- At no depth there is nothing that could be closed. -/
theorem not_inside_zero (closed : t.lexeme = .closeParen) : ¬Inside 0 (t :: ts) := by
  simp only [Inside, closed, not_false_iff]

theorem inside_other (opens : t.lexeme ≠ .openParen) (closes : t.lexeme ≠ .closeParen) :
    Inside depth (t :: ts) ↔ Inside depth ts := by
  cases token : t.lexeme with
  | openParen => exact absurd token opens
  | closeParen => exact absurd token closes
  | _ => simp only [Inside, token]

theorem Balanced.cons (rest : Balanced ts) (token : t.lexeme = lexeme) (opens : lexeme ≠ .openParen)
    (closes : lexeme ≠ .closeParen) : Balanced (t :: ts) :=
  .other (token ▸ opens) (token ▸ closes) rest

theorem Balanced.append (first : Balanced ts) (rest : Balanced us) : Balanced (ts ++ us) := by
  induction first with
  | nil => exact rest
  | other opens closes _ ih => exact .other opens closes ih
  | parens opened inner closed _ _ ih =>
    rw [List.append_assoc, List.cons_append]
    exact .parens opened inner closed ih

/-- Balanced tokens open and close nothing for those behind them. -/
theorem Balanced.inside_append (balanced : Balanced ts) :
    Inside depth (ts ++ us) ↔ Inside depth us := by
  induction balanced generalizing depth us with
  | nil => exact Iff.rfl
  | other opens closes _ ih => rw [List.cons_append, inside_other opens closes, ih]
  | parens opened _ closed _ inner rest =>
    rw [List.append_assoc, List.cons_append, List.cons_append, inside_opening opened, inner,
      inside_closing closed, rest]

/-- What is balanced never comes out of the list it is in. -/
theorem Balanced.inside (balanced : Balanced ts) : Inside depth ts := by
  rw [← List.append_nil ts, balanced.inside_append]
  exact inside_nil

mutual

/-- An expression closes all it opens. -/
theorem Derives.balanced : ∀ {mode : Mode} {ts : List Token} {e : Expr}, Derives mode ts e →
    Balanced ts
  | _, _, _, .int token => Balanced.nil.cons token nofun nofun
  | _, _, _, .str token => Balanced.nil.cons token nofun nofun
  | _, _, _, .ident token => Balanced.nil.cons token nofun nofun
  | _, _, _, .quoted token datum => datum.balanced.cons token nofun nofun
  | _, _, _, .list opened _ items closed => .parens opened items.balanced closed .nil
  | _, _, _, .letIn opened word opened' bound closed' body _ closed => by
    have items := (Balanced.parens opened' bound.balanced closed' body.balanced).cons word nofun nofun
    have form := Balanced.parens opened items closed .nil
    rwa [List.cons_append, List.cons_append] at form ⊢
  | _, _, _, .longQuoted opened word datum closed =>
    .parens opened (datum.balanced.cons word nofun nofun) closed .nil

theorem DerivesAll.balanced : ∀ {mode : Mode} {ts : List Token} {es : List Expr},
    DerivesAll mode ts es → Balanced ts
  | _, _, _, .nil => .nil
  | _, _, _, .cons first rest => first.balanced.append rest.balanced

theorem DerivesBindings.balanced : ∀ {ts : List Token} {bindings : List (LetBinding Expr)},
    DerivesBindings ts bindings → Balanced ts
  | _, _, .nil => .nil
  | _, _, .cons opened named value closed rest =>
    .parens opened (value.balanced.cons named nofun nofun) closed rest.balanced

end

/-- An opening parenthesis is unclosed if all behind it stays inside. -/
theorem unclosed_of_inside (before : List Token) (opened : opening.lexeme = .openParen)
    (inside : Inside 0 behind) : Unclosed (before ++ opening :: behind) opening := by
  refine ⟨before, behind, rfl, opened, ?_⟩
  rintro inner closing rest rfl closed balanced
  exact not_inside_zero closed (balanced.inside_append.mp inside)

namespace State

/-- Among the bindings of a `let` form two parentheses are open, of the form and of its bindings. -/
theorem OpensLet.unclosed {form : Span} {bindings : List (LetBinding Expr)}
    (opens : OpensLet form bindings us) (before : List Token) :
    ∃ opening, Unclosed (before ++ us) opening ∧ form = opening.span := by
  cases opens with
  | mk opened keyword opened' bound =>
    -- The parenthesis of the form is not closed: the one of its bindings still is open behind it.
    refine ⟨_, unclosed_of_inside before opened ?_, rfl⟩
    rw [inside_other (by simp [keyword]) (by simp [keyword]), inside_opening opened']
    exact bound.balanced.inside

theorem OpensLet.unclosed_body {form : Span} {bindings : List (LetBinding Expr)}
    (opens : OpensLet form bindings us) (closed : closing.lexeme = .closeParen) (body : Balanced ts)
    (before : List Token) :
    ∃ opening, Unclosed (before ++ us ++ closing :: ts) opening ∧ form = opening.span := by
  cases opens with
  | @mk opening head opening' vs _ opened keyword opened' bound =>
    have behind := (Balanced.parens opened' bound.balanced closed body).cons keyword nofun nofun
    refine ⟨_, ?_, rfl⟩
    rw [List.append_assoc]
    exact unclosed_of_inside before opened behind.inside

/-- Where an expression has to come, the end of the text is the fault behind an apostrophe and behind
the name of a binding; else the innermost form is. -/
theorem Context.endOfText (context : Context holes roots ts)
    (ended : finish ⟨.expr, holes, roots⟩ length = .error error) :
    (error = ⟨.unexpectedEnd, .ofOffsets length length⟩ ∧
        ((∃ t ∈ ts.getLast?, t.lexeme = .quoteMark) ∨ AwaitsInit ts)) ∨
      error.fault = .unclosedList ∧ ∃ opening, Unclosed ts opening ∧ error.span = opening.span := by
  -- the innermost hole is what the end is blamed for
  cases context with
  | nil => cases ended
  | quote outer token =>
    cases ended
    exact .inl ⟨rfl, .inl ⟨_, List.getLast?_concat, token⟩⟩
  | list outer opened plain done =>
    cases ended
    exact .inr ⟨rfl, _, unclosed_of_inside _ opened done.balanced.inside, rfl⟩
  | longQuote outer code opened keyword =>
    cases ended
    exact .inr ⟨rfl, _, unclosed_of_inside _ opened (Balanced.nil.cons keyword nofun nofun).inside, rfl⟩
  -- the one place within a list where the end is not blamed on it
  | init outer code form opened named =>
    cases ended
    exact .inl ⟨rfl, .inr ⟨_, _, _, _, _, _, .init outer code form opened named⟩⟩
  | body outer code form closed done =>
    cases ended
    exact .inr ⟨rfl, form.unclosed_body closed done.balanced _⟩

theorem Spells.endOfText (spells : Spells s ts) (ended : s.finish length = .error error) :
    (error = ⟨.unexpectedEnd, .ofOffsets length length⟩ ∧
        ((∃ t ∈ ts.getLast?, t.lexeme = .quoteMark) ∨ AwaitsInit ts)) ∨
      error.fault = .unclosedList ∧ ∃ opening, Unclosed ts opening ∧ error.span = opening.span := by
  cases spells with
  | expr context => exact context.endOfText ended
  | bindingList outer code opened keyword =>
    cases ended
    exact .inr ⟨rfl, _, unclosed_of_inside _ opened (Balanced.nil.cons keyword nofun nofun).inside, rfl⟩
  | binding outer code form =>
    cases ended
    exact .inr ⟨rfl, form.unclosed _⟩
  | name outer code form opened =>
    cases ended
    exact .inr ⟨rfl, _, unclosed_of_inside _ opened inside_nil, rfl⟩
  | bindingClose outer code form opened named value =>
    cases ended
    exact .inr ⟨rfl, _, unclosed_of_inside _ opened (value.balanced.cons named nofun nofun).inside, rfl⟩
  | quoteClose outer code opened keyword done =>
    cases ended
    exact .inr ⟨rfl, _, unclosed_of_inside _ opened (done.balanced.cons keyword nofun nofun).inside, rfl⟩

/-- Elements are read one after the other. -/
theorem steps_gather {items : List Expr} {state : List Expr → State} (h : DerivesAll mode ts items.reverse)
    (gathers : Gathers mode state) (fits : Fits (state []).holes ts) :
    (state []).steps ts = .ok (state items) := by
  have run := h.steps gathers [] [] fits
  rwa [List.append_nil, List.reverse_reverse, List.append_nil] at run

theorem OpensLet.steps {form : Span} {bindings : List (LetBinding Expr)}
    (opens : OpensLet form bindings us) (code : State.mode holes = .code) (roots : List Expr) :
    State.steps ⟨.expr, holes, roots⟩ us = .ok ⟨.binding form bindings, holes, roots⟩ := by
  cases opens with
  | @mk opening head opening' ts bindings opened keyword opened' bound =>
    have run := bound.steps roots holes opening.span [] []
    rw [List.append_nil, List.reverse_reverse, List.append_nil] at run
    simp only [steps_cons, step, readExpr, opened, code, keyword, readIdent, if_true, opened', ok_bind]
    exact run

/-- Tokens that lead up to an expression are read up to there. -/
theorem steps_of_context (context : Context holes roots ts) :
    State.initial.steps ts = .ok ⟨.expr, holes, roots⟩ := by
  -- from the outermost hole inwards, each with the tokens that opened it
  induction context with
  | nil done => exact steps_gather done gathers_roots (fun _ _ same => by cases same)
  | quote outer token ih =>
    rw [steps_append, ih]
    simp only [ok_bind, steps_cons, step, readExpr, token]
    rfl
  | @list holes roots ts opening us items outer opened plain done ih =>
    -- No word at the head turns this list into a form of its own.
    have fits : Fits (.list (State.mode holes) opening.span [] :: holes) us := by
      intro _ _ same
      cases code : State.mode holes with
      | code => exact plain code
      | datum => simp [code] at same
    rw [steps_append, ih]
    simp only [ok_bind, steps_cons, step, readExpr, opened]
    exact steps_gather done (gathers_list _ opening.span holes roots) fits
  | longQuote outer code opened keyword ih =>
    have notLet : ¬"quote" = "let" := by decide
    rw [steps_append, ih]
    simp only [ok_bind, steps_cons, step, readExpr, opened, code, keyword, readIdent, if_neg notLet,
      if_true]
    rfl
  | init outer code form opened named ih =>
    rw [List.append_assoc, steps_append, ih, ok_bind, steps_append, form.steps code]
    simp only [ok_bind, steps_cons, step, opened, named]
    rfl
  | body outer code form closed done ih =>
    rw [List.append_assoc, steps_append, ih, ok_bind, steps_append, form.steps code]
    simp only [ok_bind, steps_cons, step, closed]
    exact steps_gather done (gathers_body _ _ _ _) (fun _ _ same => by cases same)

end State

/-- Tokens that are refused for running out are all read, and then the end of the text is refused. -/
theorem exists_run_of_incomplete (refused : readTokens ts length = .error error)
    (incomplete : error.fault.IsIncomplete) :
    ∃ s, State.initial.steps ts = .ok s ∧ s.finish length = .error error := by
  change (State.initial.steps ts).bind (·.finish length) = _ at refused
  cases run : State.initial.steps ts with
  | ok s =>
    rw [run] at refused
    exact ⟨s, rfl, refused⟩
  | error refusal =>
    rw [run] at refused
    cases refused
    exact absurd incomplete (isMisplaced_of_steps run).not_incomplete

/-- Behind an apostrophe a datum is awaited. -/
theorem unexpectedEnd_of_quoteMark (run : State.initial.steps ts = .ok s)
    (last : ∃ t ∈ ts.getLast?, t.lexeme = .quoteMark) (ended : s.finish length = .error error) :
    error.fault = .unexpectedEnd := by
  obtain ⟨t, last, mark⟩ := last
  obtain ⟨xs, rfl⟩ := List.getLast?_eq_some_iff.mp last
  rw [steps_append] at run
  obtain ⟨⟨expected, holes, roots⟩, -, run⟩ := except_bind_ok_iff.mp run
  rw [steps_cons] at run
  obtain ⟨_, next, run⟩ := except_bind_ok_iff.mp run
  obtain rfl : expected = .expr := expected_of_quoteMark mark next
  simp only [step, readExpr, mark, Except.ok.injEq] at next
  subst next
  cases run
  cases ended
  rfl

theorem unexpectedEnd_of_awaitsInit (run : State.initial.steps ts = .ok s) (awaits : AwaitsInit ts)
    (ended : s.finish length = .error error) : error.fault = .unexpectedEnd := by
  obtain ⟨opening, bindings, paren, name, holes, roots, context⟩ := awaits
  cases (steps_of_context context).symm.trans run
  cases ended
  rfl

/-- Tokens that run out are refused at the end of the text if they end with an apostrophe or behind the
name of a binding, and only then; all others are refused at a parenthesis that is opened among them and
not closed. -/
theorem fault_at_end (refused : readTokens ts length = .error error)
    (incomplete : error.fault.IsIncomplete) :
    (error.fault = .unexpectedEnd ↔
      (∃ t ∈ ts.getLast?, t.lexeme = .quoteMark) ∨ AwaitsInit ts) ∧
    (error.fault = .unexpectedEnd → error.span = .ofOffsets length length) ∧
    (error.fault ≠ .unexpectedEnd → error.fault = .unclosedList ∧
      ∃ opening, Unclosed ts opening ∧ error.span = opening.span) := by
  obtain ⟨s, run, ended⟩ := exists_run_of_incomplete refused incomplete
  have start : Spells State.initial [] := .expr (.nil .nil)
  rcases (spells_steps start run).endOfText ended with ⟨rfl, cause⟩ | ⟨unclosed, place⟩
  · exact ⟨iff_of_true rfl cause, fun _ => rfl, fun other => absurd rfl other⟩
  · -- Both causes lead to states that report the end of the text, so none of them is given.
    have other : error.fault ≠ .unexpectedEnd := by simp [unclosed]
    refine ⟨iff_of_false other ?_, fun same => absurd same other, fun _ => ⟨unclosed, place⟩⟩
    rintro (last | awaits)
    · exact other (unexpectedEnd_of_quoteMark run last ended)
    · exact other (unexpectedEnd_of_awaitsInit run awaits ended)

/-- The tokens of `(let ((x (f`, where the innermost of four parentheses is to blame, and behind an
apostrophe the end of the text. -/
theorem fault_at_end_inner :
    let ts : List Token := [⟨.openParen, ⟨0, 1⟩⟩, ⟨.ident "let", ⟨1, 4⟩⟩, ⟨.openParen, ⟨5, 6⟩⟩,
      ⟨.openParen, ⟨6, 7⟩⟩, ⟨.ident "x", ⟨7, 8⟩⟩, ⟨.openParen, ⟨9, 10⟩⟩, ⟨.ident "f", ⟨10, 11⟩⟩]
    (readTokens ts 11 = .error ⟨.unclosedList, ⟨9, 10⟩⟩ ∧ ¬AwaitsInit ts ∧
      ∃ opening, Unclosed ts opening ∧ ⟨9, 10⟩ = opening.span) ∧
    readTokens (ts ++ [⟨.quoteMark, ⟨12, 13⟩⟩]) 13 = .error ⟨.unexpectedEnd, ⟨13, 13⟩⟩ := by
  intro ts
  have open_ : readTokens ts 11 = .error ⟨.unclosedList, ⟨9, 10⟩⟩ := by rfl
  obtain ⟨ends, -, place⟩ := fault_at_end open_ (.inl rfl)
  have closed : ¬AwaitsInit ts := fun awaits => nomatch ends.mpr (.inr awaits)
  exact ⟨⟨open_, closed, (place nofun).2⟩, by rfl⟩

/-- The tokens of `(let ((x`: no apostrophe is at their end, and three parentheses are not closed, but
what is reported is the end of the text. -/
theorem not_quoteMark_at_end :
    let ts : List Token := [⟨.openParen, ⟨0, 1⟩⟩, ⟨.ident "let", ⟨1, 4⟩⟩, ⟨.openParen, ⟨5, 6⟩⟩,
      ⟨.openParen, ⟨6, 7⟩⟩, ⟨.ident "x", ⟨7, 8⟩⟩]
    ∃ error, readTokens ts 8 = .error error ∧ error.fault.IsIncomplete ∧
      ¬(error.fault = .unexpectedEnd ↔ ∃ t ∈ ts.getLast?, t.lexeme = .quoteMark) := by
  refine ⟨⟨.unexpectedEnd, ⟨8, 8⟩⟩, by rfl, .inr rfl, fun same => ?_⟩
  obtain ⟨t, last, mark⟩ := same.mp rfl
  cases last
  cases mark

end TwinLisp.Reader
