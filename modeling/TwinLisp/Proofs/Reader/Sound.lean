import TwinLisp.Proofs.Reader.Complete
import TwinLisp.Proofs.Run

/-! Whatever the reader returns is the tree of a derivation of the tokens. -/

namespace TwinLisp.Reader

/-- What begins with no name begins no form. -/
theorem plain_cons {t : Token} {ts : List Token} (h : ∀ name, t.lexeme ≠ .ident name) :
    Plain (t :: ts) := by
  rintro _ ⟨⟩
  exact ⟨h "let", h "quote"⟩

/-- Only the first token decides whether a list of code is a form of its own. -/
theorem Plain.append {ts us : List Token} (h : Plain ts) (h' : ts = [] → Plain us) :
    Plain (ts ++ us) := by
  cases ts with
  | nil => exact h' rfl
  | cons t ts => exact h

theorem DerivesAll.append {mode : Mode} {ts us : List Token} {es es' : List Expr} :
    DerivesAll mode ts es → DerivesAll mode us es' → DerivesAll mode (ts ++ us) (es ++ es')
  | .nil, h' => h'
  | .cons first rest, h' => by
    rw [List.append_assoc]
    exact .cons first (rest.append h')

theorem DerivesAll.singleton {mode : Mode} {ts : List Token} {e : Expr} (h : Derives mode ts e) :
    DerivesAll mode ts [e] := by
  rw [← List.append_nil ts]
  exact .cons h .nil

theorem DerivesBindings.append {ts us : List Token} {bs bs' : List (LetBinding Expr)} :
    DerivesBindings ts bs → DerivesBindings us bs' → DerivesBindings (ts ++ us) (bs ++ bs')
  | .nil, h' => h'
  | .cons opened named value closed rest, h' => by
    simp only [List.cons_append, List.append_assoc]
    exact .cons opened named value closed (rest.append h')

theorem Derives.ne_nil {mode : Mode} {ts : List Token} {e : Expr} (h : Derives mode ts e) :
    ts ≠ [] := by
  cases h <;> simp only [ne_eq, List.cons_append, reduceCtorEq, not_false_iff]

theorem DerivesAll.eq_nil {mode : Mode} {ts : List Token} {es : List Expr}
    (h : DerivesAll mode ts es) (hnil : ts = []) : es = [] := by
  cases h with
  | nil => rfl
  | cons first rest => exact absurd (List.append_eq_nil_iff.mp hnil).1 first.ne_nil

theorem DerivesAll.tokens_eq_nil {mode : Mode} {ts : List Token} (h : DerivesAll mode ts []) :
    ts = [] := by
  cases h
  rfl

namespace State

/-- The tokens are a `let` form up to some of its bindings, which are kept in reverse. -/
inductive OpensLet : Span → List (LetBinding Expr) → List Token → Prop
  | mk {opening head opening' ts bindings} (opened : opening.lexeme = .openParen)
    (keyword : head.lexeme = .ident "let") (opened' : opening'.lexeme = .openParen)
    (bound : DerivesBindings ts bindings.reverse) :
    OpensLet opening.span bindings (opening :: head :: opening' :: ts)

/-- The tokens that lead up to an expression in these holes. -/
inductive Context : List Hole → List Expr → List Token → Prop
  | nil {roots ts} (done : DerivesAll .code ts roots.reverse) : Context [] roots ts
  | quote {holes roots ts mark} (outer : Context holes roots ts)
    (token : mark.lexeme = .quoteMark) : Context (.quote mark.span :: holes) roots (ts ++ [mark])
  | list {holes roots ts opening us items} (outer : Context holes roots ts)
    (opened : opening.lexeme = .openParen) (plain : mode holes = .code → Plain us)
    (done : DerivesAll (mode holes) us items.reverse) :
    Context (.list (mode holes) opening.span items :: holes) roots (ts ++ opening :: us)
  | longQuote {holes roots ts opening head} (outer : Context holes roots ts)
    (code : mode holes = .code) (opened : opening.lexeme = .openParen)
    (keyword : head.lexeme = .ident "quote") :
    Context (.longQuote opening.span :: holes) roots (ts ++ [opening, head])
  | init {holes roots ts opening us bindings paren word name} (outer : Context holes roots ts)
    (code : mode holes = .code) (form : OpensLet opening bindings us)
    (opened : paren.lexeme = .openParen) (named : word.lexeme = .ident name) :
    Context (.init opening bindings paren.span name :: holes) roots
      (ts ++ us ++ [paren, word])
  | body {holes roots ts opening us bindings closing vs items} (outer : Context holes roots ts)
    (code : mode holes = .code) (form : OpensLet opening bindings us)
    (closed : closing.lexeme = .closeParen) (done : DerivesAll .code vs items.reverse) :
    Context (.body opening bindings.reverse items :: holes) roots (ts ++ us ++ closing :: vs)

/-- The tokens that lead to a state. -/
inductive Spells : State → List Token → Prop
  | expr {holes roots ts} (context : Context holes roots ts) : Spells ⟨.expr, holes, roots⟩ ts
  | bindingList {holes roots ts opening head} (outer : Context holes roots ts)
    (code : mode holes = .code) (opened : opening.lexeme = .openParen)
    (keyword : head.lexeme = .ident "let") :
    Spells ⟨.bindingList opening.span, holes, roots⟩ (ts ++ [opening, head])
  | binding {holes roots ts opening us bindings} (outer : Context holes roots ts)
    (code : mode holes = .code) (form : OpensLet opening bindings us) :
    Spells ⟨.binding opening bindings, holes, roots⟩ (ts ++ us)
  | name {holes roots ts opening us bindings paren} (outer : Context holes roots ts)
    (code : mode holes = .code) (form : OpensLet opening bindings us)
    (opened : paren.lexeme = .openParen) :
    Spells ⟨.name opening bindings paren.span, holes, roots⟩ (ts ++ us ++ [paren])
  | bindingClose {holes roots ts opening us bindings paren word name vs init}
    (outer : Context holes roots ts) (code : mode holes = .code)
    (form : OpensLet opening bindings us) (opened : paren.lexeme = .openParen)
    (named : word.lexeme = .ident name) (value : Derives .code vs init) :
    Spells ⟨.bindingClose opening bindings paren.span name init, holes, roots⟩
      (ts ++ us ++ paren :: word :: vs)
  | quoteClose {holes roots ts opening head us datum} (outer : Context holes roots ts)
    (code : mode holes = .code) (opened : opening.lexeme = .openParen)
    (keyword : head.lexeme = .ident "quote") (done : Derives .datum us datum) :
    Spells ⟨.quoteClose opening.span datum, holes, roots⟩ (ts ++ opening :: head :: us)

/-- A form that does not begin with a word may stand anywhere. -/
theorem fits_cons {holes : List Hole} {t : Token} {ts : List Token}
    (h : ∀ name, t.lexeme ≠ .ident name) : Fits holes (t :: ts) :=
  fun _ _ _ => plain_cons h

/-- An expression that is complete goes into the hole it was read for. -/
theorem spells_place {holes : List Hole} {roots : List Expr} {ts us : List Token} {e : Expr}
    (context : Context holes roots ts) (done : Derives (mode holes) us e)
    (fits : Fits holes us) : Spells (place roots e holes) (ts ++ us) := by
  induction context generalizing us e with
  | nil before =>
    refine .expr (.nil ?_)
    rw [List.reverse_cons]
    exact before.append (.singleton done)
  -- the quotation is complete with its datum, and goes on to the hole around it
  | quote outer token ih =>
    rw [List.append_assoc]
    refine ih (.quoted token done) (fits_cons ?_)
    simp only [token, ne_eq, reduceCtorEq, not_false_iff, implies_true]
  | @list holes roots ts opening vs items outer opened plain before ih =>
    rw [List.append_assoc, List.cons_append]
    refine .expr (.list outer opened (fun code => (plain code).append ?_) ?_)
    · intro empty
      -- no tokens before the first element, where alone a word can open a form
      have none : items = [] := List.reverse_eq_nil_iff.mp (before.eq_nil empty)
      exact fits _ _ (by rw [none, code])
    · rw [List.reverse_cons]
      exact before.append (.singleton done)
  | longQuote outer code opened keyword =>
    rw [List.append_assoc]
    exact .quoteClose outer code opened keyword done
  | init outer code form opened named =>
    rw [List.append_assoc]
    exact .bindingClose outer code form opened named done
  | body outer code form closed before =>
    rw [List.append_assoc, List.cons_append]
    refine .expr (.body outer code form closed ?_)
    rw [List.reverse_cons]
    exact before.append (.singleton done)

/-- A name is an expression, or it opens a form at the head of a list of code. -/
theorem spells_readIdent {holes : List Hole} {roots : List Expr} {ts : List Token} {t : Token}
    {name : String} (context : Context holes roots ts) (token : t.lexeme = .ident name) :
    Spells (readIdent roots holes name t.span) (ts ++ [t]) := by
  unfold readIdent
  split
  next opening outer =>
    by_cases plain : name ≠ "let" ∧ name ≠ "quote"
    · rw [if_neg plain.1, if_neg plain.2]
      refine spells_place context (.ident token) ?_
      rintro _ _ _ _ ⟨⟩
      rw [token, ne_eq, ne_eq, Lexeme.ident.injEq, Lexeme.ident.injEq]
      exact plain
    · -- at the head of a list the word opens a form
      generalize hmode : Mode.code = mode at context
      cases context with
      | list before opened _ done =>
        cases done.tokens_eq_nil
        rw [List.append_assoc, List.singleton_append]
        by_cases keyword : name = "let"
        · rw [if_pos keyword]
          exact .bindingList before hmode.symm opened (keyword ▸ token)
        · have keyword' : name = "quote" := Decidable.byContradiction (fun h => plain ⟨keyword, h⟩)
          rw [if_neg keyword, if_pos keyword']
          exact .expr (.longQuote before hmode.symm opened (keyword' ▸ token))
  next h =>
    refine spells_place context (.ident token) ?_
    rintro opening outer rfl
    exact absurd rfl (h opening outer)

/-- A closing parenthesis completes the innermost list or `let`. -/
theorem spells_readClose {holes : List Hole} {roots : List Expr} {ts : List Token} {t : Token}
    {s : State} (context : Context holes roots ts) (token : t.lexeme = .closeParen)
    (h : readClose roots holes t.span = .ok s) : Spells s (ts ++ [t]) := by
  have opens {opening : Token} {us : List Token} (opened : opening.lexeme = .openParen)
      (holes : List Hole) : Fits holes (opening :: us ++ [t]) := by
    refine fits_cons ?_
    simp only [opened, ne_eq, reduceCtorEq, not_false_iff, implies_true]
  cases context with
  | nil | quote | longQuote | init => cases h
  | list outer opened plain done =>
    cases h
    rw [List.append_assoc]
    exact spells_place outer (.list opened plain done token) (opens opened _)
  | @body _ _ ts opening us bindings closing vs items outer code form closed done =>
    -- a body needs an expression
    cases items with
    | nil => cases h
    | cons e es =>
      cases h
      cases form with
      | mk opened keyword opened' bound =>
      rw [List.append_assoc, List.append_assoc]
      have nonempty : (e :: es).reverse ≠ [] := mt List.reverse_eq_nil_iff.mp (List.cons_ne_nil e es)
      have tree := Derives.letIn opened keyword opened' bound closed done nonempty token
      rw [List.append_assoc] at tree
      exact spells_place outer (code ▸ tree) (fits_cons (by simp [opened]))

theorem spells_readExpr {holes : List Hole} {roots : List Expr} {ts : List Token} {t : Token}
    {s : State} (context : Context holes roots ts) (h : readExpr roots holes t = .ok s) :
    Spells s (ts ++ [t]) := by
  unfold readExpr at h
  -- a number, a text, a name, an apostrophe and the two parentheses
  split at h
  next token =>
    cases h
    exact spells_place context (.int token) (fits_cons (by simp [token]))
  next token =>
    cases h
    exact spells_place context (.str token) (fits_cons (by simp [token]))
  next token =>
    cases h
    exact spells_readIdent context token
  next token =>
    cases h
    exact .expr (.quote context token)
  next token =>
    cases h
    exact .expr (.list context token (fun _ _ h => nomatch h) .nil)
  next token => exact spells_readClose context token h

theorem OpensLet.snoc {opening : Span} {bindings : List (LetBinding Expr)} {us vs : List Token}
    {paren word closing : Token} {name : String} {init : Expr} (form : OpensLet opening bindings us)
    (opened : paren.lexeme = .openParen) (named : word.lexeme = .ident name)
    (value : Derives .code vs init) (closed : closing.lexeme = .closeParen) :
    OpensLet opening (⟨name, init, paren.span.merge closing.span⟩ :: bindings)
      (us ++ (paren :: word :: vs ++ [closing])) := by
  cases form with
  | mk opened₁ keyword opened₂ bound =>
    refine .mk opened₁ keyword opened₂ ?_
    rw [List.reverse_cons]
    exact bound.append (.cons opened named value closed .nil)

/-- One token more is spelled by the state after it. -/
theorem spells_step {s s' : State} {ts : List Token} {t : Token} (spells : Spells s ts)
    (h : s.step t = .ok s') : Spells s' (ts ++ [t]) := by
  unfold step at h
  -- one case for each thing that can be expected; a token that does not fit is refused
  cases spells with
  | expr context => exact spells_readExpr context h
  | bindingList outer code opened keyword =>
    simp only at h
    split at h
    next token =>
      cases h
      rw [List.append_assoc]
      exact .binding outer code (.mk opened keyword token .nil)
    next => cases h
  | binding outer code form =>
    simp only at h
    split at h
    next token =>
      cases h
      exact .name outer code form token
    next token =>
      cases h
      exact .expr (.body outer code form token .nil)
    next => cases h
  | name outer code form opened =>
    simp only at h
    split at h
    next token =>
      cases h
      rw [List.append_assoc]
      exact .expr (.init outer code form opened token)
    next => cases h
  | bindingClose outer code form opened named value =>
    simp only at h
    split at h
    next token =>
      cases h
      rw [List.append_assoc, List.append_assoc]
      exact .binding outer code (form.snoc opened named value token)
    next => cases h
  | quoteClose outer code opened keyword done =>
    simp only at h
    split at h
    next token =>
      cases h
      rw [List.append_assoc]
      refine spells_place outer ?_ (fits_cons (by simp [opened]))
      rw [code]
      exact .longQuoted opened keyword done token
    next => cases h

theorem spells_steps {s s' : State} {ts us : List Token} (spells : Spells s ts)
    (h : s.steps us = .ok s') : Spells s' (ts ++ us) := by
  induction us generalizing s ts with
  | nil =>
    cases h
    rw [List.append_nil]
    exact spells
  | cons t us ih =>
    rw [steps_cons] at h
    obtain ⟨s₁, first, rest⟩ := except_bind_ok_iff.mp h
    have := ih (spells_step spells first) rest
    rwa [List.append_assoc] at this

/-- Only when nothing is open does the reader end without a fault. -/
theorem finish_eq_ok {s : State} {length : Nat} {program : List Expr}
    (h : s.finish length = .ok program) : s = ⟨.expr, [], program.reverse⟩ := by
  obtain ⟨expected, holes, roots⟩ := s
  unfold finish at h
  cases expected <;> simp only [reduceCtorEq] at h
  rcases holes with _ | ⟨_ | _ | _ | _ | _, _⟩ <;> simp only [reduceCtorEq] at h
  cases h
  rw [List.reverse_reverse]

end State

open State

/-- Whatever is read is derivable. -/
theorem derives_of_readTokens {ts : List Token} {length : Nat} {program : List Expr}
    (h : readTokens ts length = .ok program) : DerivesProgram ts program := by
  obtain ⟨s, run, finished⟩ := except_bind_ok_iff.mp h
  cases finish_eq_ok finished
  have start : Spells initial [] := .expr (.nil .nil)
  cases spells_steps start run with
  | expr context =>
    cases context with
    | nil done => rwa [List.reverse_reverse] at done

end TwinLisp.Reader
