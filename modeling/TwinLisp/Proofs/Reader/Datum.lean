import Mathlib.Data.List.Forall2
import TwinLisp.Proofs.Reader.Sound
import TwinLisp.Value

/-!
Code as data. Tokens that are read as code can be read as a datum, also where they stand in another
place, and both trees are the same data when they are quoted: the forms `let` and `quote` are quoted as
the lists that they were written as.
-/

namespace TwinLisp.Reader

/-- The same tokens in other places. -/
abbrev Displaced : List Token → List Token → Prop :=
  List.Forall₂ fun t t' => t'.lexeme = t.lexeme

variable {opening closing t : Token} {ts us xs : List Token} {ds : List Expr}

/-- A token that is moved keeps its lexeme. -/
theorem Displaced.of_cons (h : Displaced (t :: ts) xs) :
    ∃ t' ts', t'.lexeme = t.lexeme ∧ Displaced ts ts' ∧ xs = t' :: ts' :=
  List.forall₂_cons_left_iff.mp h

theorem Displaced.of_append (h : Displaced (ts ++ us) xs) :
    ∃ ts' us', Displaced ts ts' ∧ Displaced us us' ∧ xs = ts' ++ us' := by
  induction ts generalizing xs with
  | nil => exact ⟨[], xs, .nil, h, rfl⟩
  | cons t ts ih =>
    obtain ⟨t', xs, here, rest, rfl⟩ := Displaced.of_cons h
    obtain ⟨ts', us', first, second, rfl⟩ := ih rest
    exact ⟨t' :: ts', us', .cons here first, second, rfl⟩

theorem Displaced.of_singleton (h : Displaced [t] xs) : ∃ t', t'.lexeme = t.lexeme ∧ xs = [t'] := by
  obtain ⟨t', xs, here, rest, rfl⟩ := Displaced.of_cons h
  cases rest
  exact ⟨t', here, rfl⟩

/-- Tokens between two parentheses. -/
theorem Displaced.of_parens (h : Displaced (opening :: ts ++ [closing]) xs) :
    ∃ opening' ts' closing', opening'.lexeme = opening.lexeme ∧ Displaced ts ts' ∧
      closing'.lexeme = closing.lexeme ∧ xs = opening' :: ts' ++ [closing'] := by
  obtain ⟨xs, last, front, back, rfl⟩ := h.of_append
  obtain ⟨closing', closed, rfl⟩ := back.of_singleton
  obtain ⟨opening', ts', opened, inner, rfl⟩ := Displaced.of_cons front
  exact ⟨opening', ts', closing', opened, inner, closed, rfl⟩

theorem derives_datum_list (opened : opening.lexeme = .openParen) (items : DerivesAll .datum ts ds)
    (closed : closing.lexeme = .closeParen) :
    Derives .datum (opening :: ts ++ [closing]) (.list ds (opening.span.merge closing.span)) :=
  .list opened (fun code => nomatch code) items closed

mutual

/-- An expression is a datum wherever its tokens stand, and it is quoted as that datum. -/
theorem Derives.as_datum : ∀ {mode : Mode} {ts : List Token} {e : Expr}, Derives mode ts e →
    ∀ {ts' : List Token}, Displaced ts ts' →
      ∃ d, Derives .datum ts' d ∧ Value.quoted d = Value.quoted e
  | _, _, _, .int token, _, same => by
    obtain ⟨t', here, rfl⟩ := same.of_singleton
    exact ⟨_, .int (here.trans token), rfl⟩
  | _, _, _, .str token, _, same => by
    obtain ⟨t', here, rfl⟩ := same.of_singleton
    exact ⟨_, .str (here.trans token), rfl⟩
  | _, _, _, .ident token, _, same => by
    obtain ⟨t', here, rfl⟩ := same.of_singleton
    exact ⟨_, .ident (here.trans token), rfl⟩
  | _, _, _, .quoted token datum, _, same => by
    obtain ⟨mark, _, here, rest, rfl⟩ := Displaced.of_cons same
    obtain ⟨d, derived, equal⟩ := datum.as_datum rest
    refine ⟨_, .quoted (here.trans token) derived, ?_⟩
    rw [Value.quoted, Value.quoted, equal]
  | _, _, _, .list opened _ items closed, _, same => by
    obtain ⟨opening, ts', closing, opened', inner, closed', rfl⟩ := same.of_parens
    obtain ⟨ds, derived, equal⟩ := items.as_data inner
    refine ⟨_, derives_datum_list (opened'.trans opened) derived (closed'.trans closed), ?_⟩
    rw [Value.quoted, Value.quoted, equal]
  | _, _, _, @Derives.letIn opening head opening' ts _ closing' us _ closing opened word opened' bound
      closed' body _ closed, _, same => by
    -- read as data, a `let` is the list of its word, its bindings and its body
    have nested : opening :: head :: opening' :: ts ++ closing' :: us ++ [closing]
        = opening :: (head :: ((opening' :: ts ++ [closing']) ++ us)) ++ [closing] := by simp
    rw [nested] at same
    obtain ⟨o, xs, c, o_eq, inner, c_eq, rfl⟩ := same.of_parens
    obtain ⟨head', xs, word', behind, rfl⟩ := Displaced.of_cons inner
    obtain ⟨xs, us', bindingList, rest, rfl⟩ := behind.of_append
    obtain ⟨o', ts', c', o'_eq, bindings, c'_eq, rfl⟩ := bindingList.of_parens
    obtain ⟨bs, derivedBindings, equalBindings⟩ := bound.as_data bindings
    obtain ⟨ds, derivedBody, equalBody⟩ := body.as_data rest
    have first := derives_datum_list (o'_eq.trans opened') derivedBindings (c'_eq.trans closed')
    have items := DerivesAll.cons (.ident (word'.trans word)) (.cons first derivedBody)
    refine ⟨_, derives_datum_list (o_eq.trans opened) items (c_eq.trans closed), ?_⟩
    simp only [Value.quoted, Value.quotedAll, equalBindings, equalBody]
  -- read as data, a long quotation is a list of two elements
  | _, _, _, .longQuoted opened word datum closed, _, same => by
    obtain ⟨opening, xs, closing, opened', inner, closed', rfl⟩ := same.of_parens
    obtain ⟨head, ts', word', rest, rfl⟩ := Displaced.of_cons inner
    obtain ⟨d, derived, equal⟩ := datum.as_datum rest
    have items : DerivesAll .datum (head :: ts') [.ident "quote" head.span, d] :=
      .cons (.ident (word'.trans word)) (.singleton derived)
    refine ⟨_, derives_datum_list (opened'.trans opened) items (closed'.trans closed), ?_⟩
    simp only [Value.quoted, Value.quotedAll, equal]

theorem DerivesAll.as_data : ∀ {mode : Mode} {ts : List Token} {es : List Expr},
    DerivesAll mode ts es → ∀ {ts' : List Token}, Displaced ts ts' →
      ∃ ds, DerivesAll .datum ts' ds ∧ Value.quotedAll ds = Value.quotedAll es
  | _, _, _, .nil, _, same => by
    cases same
    exact ⟨[], .nil, rfl⟩
  | _, _, _, .cons first rest, _, same => by
    obtain ⟨ts', us', here, others, rfl⟩ := same.of_append
    obtain ⟨d, derived, equal⟩ := first.as_datum here
    obtain ⟨ds, derivedAll, equalAll⟩ := rest.as_data others
    refine ⟨d :: ds, .cons derived derivedAll, ?_⟩
    rw [Value.quotedAll, Value.quotedAll, equal, equalAll]

/-- The bindings of a `let` form are lists of two elements. -/
theorem DerivesBindings.as_data : ∀ {ts : List Token} {bindings : List (LetBinding Expr)},
    DerivesBindings ts bindings → ∀ {ts' : List Token}, Displaced ts ts' →
      ∃ ds, DerivesAll .datum ts' ds ∧ Value.quotedAll ds = Value.quotedBindings bindings
  | _, _, .nil, _, same => by
    cases same
    exact ⟨[], .nil, rfl⟩
  | _, _, @DerivesBindings.cons opening word _ ts _ closing us _ opened named value closed rest, _,
      same => by
    -- a binding is a list of two, taken off the front
    have nested : opening :: word :: ts ++ closing :: us
        = (opening :: (word :: ts) ++ [closing]) ++ us := by simp
    rw [nested] at same
    obtain ⟨xs, us', binding, others, rfl⟩ := same.of_append
    obtain ⟨o, xs, c, o_eq, inner, c_eq, rfl⟩ := binding.of_parens
    obtain ⟨word', ts', named', init, rfl⟩ := Displaced.of_cons inner
    obtain ⟨d, derived, equal⟩ := value.as_datum init
    obtain ⟨ds, derivedAll, equalAll⟩ := rest.as_data others
    have pair := DerivesAll.cons (.ident (named'.trans named)) (.singleton derived)
    refine ⟨_, .cons (derives_datum_list (o_eq.trans opened) pair (c_eq.trans closed)) derivedAll, ?_⟩
    simp only [Value.quoted, Value.quotedAll, Value.quotedBindings, equal, equalAll]

end

end TwinLisp.Reader
