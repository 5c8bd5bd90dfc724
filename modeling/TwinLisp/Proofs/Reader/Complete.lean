import TwinLisp.Reader
import TwinLisp.Reader.Grammar

/-! The reader reads every derivable program, and reads its tree. -/

namespace TwinLisp.Reader

theorem Plain.of_append {ts us : List Token} (h : Plain (ts ++ us)) : Plain ts := by
  cases ts with
  | nil => exact fun _ ht => nomatch ht
  | cons t ts => exact h

/-- Reads tokens one after the other. -/
abbrev State.steps (s : State) (ts : List Token) : Except SyntaxError State :=
  ts.foldlM State.step s

namespace State

variable {roots : List Expr} {holes : List Hole} {mode : Mode} {ts us : List Token} {t : Token}

theorem steps_cons (s : State) (t : Token) (ts : List Token) :
    s.steps (t :: ts) = (s.step t).bind (·.steps ts) :=
  List.foldlM_cons

theorem ok_bind {α β : Type} (a : α) (f : α → Except SyntaxError β) :
    (Except.ok a).bind f = f a :=
  rfl

/-- What may be read next: no word that would open a form, where one could. -/
def Fits (holes : List Hole) (ts : List Token) : Prop :=
  ∀ opening outer, holes = .list .code opening [] :: outer → Plain ts

theorem Fits.of_append (h : Fits holes (ts ++ us)) : Fits holes ts :=
  fun opening outer h' => (h opening outer h').of_append

/-- A name that opens no form here is put in its place. -/
theorem readIdent_of_fits {name : String} (token : t.lexeme = .ident name)
    (fits : Fits holes (t :: ts)) :
    readIdent roots holes name t.span = place roots (.ident name t.span) holes := by
  unfold readIdent
  split
  next opening outer =>
    obtain ⟨notLet, notQuote⟩ := fits opening outer rfl t rfl
    rw [token] at notLet notQuote
    rw [if_neg (fun h => notLet (congrArg _ h)), if_neg (fun h => notQuote (congrArg _ h))]
  next => rfl

/-- A family of states that gather the expressions of a sequence, in reverse. -/
structure Gathers (mode : Mode) (state : List Expr → State) : Prop where
  expected : ∀ es, (state es).expected = .expr
  mode : ∀ es, State.mode (state es).holes = mode
  place : ∀ es e, place (state es).roots e (state es).holes = state (e :: es)
  fits : ∀ e es ts, Fits (state (e :: es)).holes ts

/-- A list gathers its elements one by one. -/
theorem gathers_list (mode : Mode) (opening : Span) (holes : List Hole) (roots : List Expr) :
    Gathers mode (fun es => ⟨.expr, .list mode opening es :: holes, roots⟩) where
  expected _ := rfl
  mode _ := rfl
  place _ _ := rfl
  fits _ _ _ _ _ h := nomatch h

theorem gathers_body (opening : Span) (bindings : List (LetBinding Expr)) (holes : List Hole)
    (roots : List Expr) :
    Gathers .code (fun es => ⟨.expr, .body opening bindings es :: holes, roots⟩) where
  expected _ := rfl
  mode _ := rfl
  place _ _ := rfl
  fits _ _ _ _ _ h := nomatch h

theorem gathers_roots : Gathers .code (fun es => ⟨.expr, [], es⟩) where
  expected _ := rfl
  mode _ := rfl
  place _ _ := rfl
  fits _ _ _ _ _ h := nomatch h

end State

open State

mutual

/-- Reading an expression puts its tree where it belongs. -/
theorem Derives.steps : ∀ {mode : Mode} {ts : List Token} {e : Expr}, Derives mode ts e →
    ∀ (roots : List Expr) (holes : List Hole) (rest : List Token), State.mode holes = mode →
      Fits holes ts →
      State.steps ⟨.expr, holes, roots⟩ (ts ++ rest) = (place roots e holes).steps rest
  | _, _, _, .int token, roots, holes, rest, _, _ => by
    simp only [List.cons_append, List.nil_append, steps_cons, step, readExpr, token, ok_bind]
  | _, _, _, .str token, roots, holes, rest, _, _ => by
    simp only [List.cons_append, List.nil_append, steps_cons, step, readExpr, token, ok_bind]
  | _, _, _, .ident token, roots, holes, rest, _, fits => by
    simp only [List.cons_append, List.nil_append, steps_cons, step, readExpr, token, ok_bind,
      readIdent_of_fits token fits]
  | _, _, _, .quoted token datum, roots, holes, rest, _, _ => by
    simp only [List.cons_append, steps_cons, step, readExpr, token, ok_bind]
    exact datum.steps _ _ _ rfl (fun _ _ h => nomatch h)
  -- the elements go into the new hole, and the closing parenthesis fills the one around it
  | mode, _, _, @Derives.list _ opening ts _ _ opened plain items closed, roots, holes, rest,
    hmode, _ => by
    simp only [List.cons_append, List.append_assoc, List.nil_append, steps_cons, step, readExpr,
      opened, ok_bind, hmode]
    have fits : Fits (.list mode opening.span [] :: holes) ts := by
      rintro _ _ ⟨⟩
      exact plain rfl
    rw [items.steps (gathers_list mode _ holes roots) [] _ fits]
    simp only [List.append_nil, steps_cons, step, readExpr, closed, readClose,
      List.reverse_reverse, ok_bind]
  | _, _, _, .letIn opened word opened' bound closed' body nonempty closed, roots, holes, rest,
    hmode, _ => by
    simp only [List.cons_append, List.append_assoc, List.nil_append, steps_cons, step, readExpr,
      opened, ok_bind, hmode, word, readIdent, if_true, opened']
    -- the bindings are gathered first, then the body, and the last parenthesis builds the tree
    rw [bound.steps _ _ _ [] _]
    simp only [List.append_nil, List.reverse_reverse, steps_cons, step, closed', ok_bind]
    rw [body.steps (gathers_body _ _ holes roots) [] _ (fun _ _ h => nomatch h)]
    obtain ⟨e, es, h⟩ := List.exists_cons_of_ne_nil (mt List.reverse_eq_nil_iff.mp nonempty)
    simp only [List.append_nil, steps_cons, step, readExpr, closed, readClose, h, ok_bind]
    rw [← h, List.reverse_reverse]
  -- the word is seen first, then exactly one datum before the parenthesis
  | _, _, _, .longQuoted opened word datum closed, roots, holes, rest, hmode, _ => by
    have notLet : ¬ "quote" = "let" := by decide
    simp only [List.cons_append, List.append_assoc, List.nil_append, steps_cons, step, readExpr,
      opened, ok_bind, hmode, word, readIdent, if_true, if_neg notLet]
    rw [datum.steps roots (.longQuote _ :: holes) _ rfl (fun _ _ h => nomatch h)]
    simp only [steps_cons, step, place, closed, ok_bind]

/-- Reading a sequence gathers the trees of its parts. -/
theorem DerivesAll.steps : ∀ {mode : Mode} {ts : List Token} {es : List Expr},
    DerivesAll mode ts es → ∀ {state : List Expr → State}, Gathers mode state →
    ∀ (done : List Expr) (rest : List Token), Fits (state done).holes ts →
      (state done).steps (ts ++ rest) = (state (es.reverse ++ done)).steps rest
  | _, _, _, .nil, _, _, _, _, _ => rfl
  | _, _, _, @DerivesAll.cons _ _ e _ _ first others, state, gathers, done, rest, fits => by
    have here : state done = ⟨.expr, (state done).holes, (state done).roots⟩ := by
      rw [← gathers.expected done]
    rw [List.append_assoc, here, first.steps _ _ _ (gathers.mode done) fits.of_append,
      gathers.place, others.steps gathers (e :: done) rest (gathers.fits e done _),
      List.reverse_cons, List.append_assoc]
    rfl

/-- Reading bindings gathers them. -/
theorem DerivesBindings.steps : ∀ {ts : List Token} {bindings : List (LetBinding Expr)},
    DerivesBindings ts bindings → ∀ (roots : List Expr) (holes : List Hole) (opening : Span)
    (done : List (LetBinding Expr)) (rest : List Token),
      State.steps ⟨.binding opening done, holes, roots⟩ (ts ++ rest)
        = State.steps ⟨.binding opening (bindings.reverse ++ done), holes, roots⟩ rest
  | _, _, .nil, _, _, _, _, _ => rfl
  | _, _, .cons opened named value closed others, roots, holes, opening, done, rest => by
    simp only [List.cons_append, List.append_assoc, steps_cons, step, opened, named, ok_bind]
    rw [value.steps roots (.init _ _ _ _ :: holes) _ rfl (fun _ _ h => nomatch h)]
    simp only [steps_cons, step, place, closed, ok_bind]
    rw [others.steps, List.reverse_cons, List.append_assoc]
    rfl

end

/-- Every derivable program is read as its tree. -/
theorem readTokens_of_derives {ts : List Token} {program : List Expr}
    (h : DerivesProgram ts program) (length : Nat) : readTokens ts length = .ok program := by
  have run := h.steps gathers_roots [] [] (fun _ _ h => nomatch h)
  rw [List.append_nil, List.append_nil] at run
  have read : ts.foldlM State.step initial = .ok ⟨.expr, [], program.reverse⟩ := run
  simp only [readTokens, read, ok_bind, finish, List.reverse_reverse]

end TwinLisp.Reader
