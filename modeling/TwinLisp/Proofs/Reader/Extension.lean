import TwinLisp.Proofs.Reader.Sound

/-!
What may still follow a text that is refused. Every state of the reader can be completed, so a fault
that is found at the end of the text goes away if the right tokens follow; a fault that is found at a
token stays, whatever follows.
-/

namespace TwinLisp

namespace SyntaxFault

/-- The fault says that the text is too short. -/
def IsIncomplete (fault : SyntaxFault) : Prop :=
  fault = .unclosedList ∨ fault = .unexpectedEnd

/-- The fault says that a token cannot stand where it stands. -/
def IsMisplaced (fault : SyntaxFault) : Prop :=
  fault = .unexpectedCloseParen ∨ (∃ shape, fault = .malformedLet shape) ∨ fault = .malformedQuote

theorem IsMisplaced.not_incomplete {fault : SyntaxFault} (h : fault.IsMisplaced) :
    ¬fault.IsIncomplete := by
  rcases h with rfl | ⟨shape, rfl⟩ | rfl <;> simp [IsIncomplete]

end SyntaxFault

namespace Reader

namespace State

variable {s s' : State} {t : Token} {ts : List Token} {error : SyntaxError} {length : Nat}

def readAll (s : State) (ts : List Token) (length : Nat) : Except SyntaxError (List Expr) :=
  (s.steps ts).bind (·.finish length)

theorem steps_append (s : State) (ts us : List Token) :
    s.steps (ts ++ us) = (s.steps ts).bind (·.steps us) :=
  List.foldlM_append

theorem readAll_append_ok (h : s.steps ts = .ok s') (us : List Token) :
    s.readAll (ts ++ us) length = s'.readAll us length := by
  unfold readAll
  rw [steps_append, h]
  rfl

theorem readAll_append_error (h : s.steps ts = .error error) (us : List Token) :
    s.readAll (ts ++ us) length = .error error := by
  unfold readAll
  rw [steps_append, h]
  rfl

/-- Some tokens lead from the state to the end of a program. -/
def Completable (s : State) : Prop :=
  ∃ us program, ∀ length, s.readAll us length = .ok program

/-- A state that leads to a completable one is completable itself. -/
theorem Completable.before (h : s.step t = .ok s') : s'.Completable → s.Completable := by
  rintro ⟨us, program, read⟩
  refine ⟨t :: us, program, fun length => ?_⟩
  rw [← read length]
  have read_one : s.steps [t] = .ok s' := by
    rw [steps_cons, h]
    rfl
  exact readAll_append_ok read_one us

/-- A closing parenthesis, wherever it stands. -/
def closing : Token := ⟨.closeParen, ⟨0, 0⟩⟩

/-- An expression of one token. -/
def atom : Token := ⟨.int 0, ⟨0, 0⟩⟩

/-- Behind an expression all open forms can be closed. -/
theorem completable_place (roots : List Expr) (e : Expr) (holes : List Hole) :
    (place roots e holes).Completable := by
  induction holes generalizing roots e with
  | nil => exact ⟨[], _, fun _ => rfl⟩
  | cons hole holes ih =>
    cases hole with
    | quote mark => exact ih roots _
    | list mode opening items => exact .before (t := closing) rfl (ih roots _)
    | longQuote opening => exact .before (t := closing) rfl (ih roots _)
    | body opening bindings items => exact .before (t := closing) rfl (ih roots _)
    | init opening bindings paren name =>
      -- the binding and the list of bindings are closed, but then a body has to come
      refine .before (t := closing) rfl ?_
      refine .before (t := closing) rfl ?_
      refine .before (t := atom) rfl ?_
      exact .before (t := closing) rfl (ih roots _)

/-- Where an expression is expected, every hole can be filled. -/
theorem completable_expr (holes : List Hole) (roots : List Expr) :
    Completable ⟨.expr, holes, roots⟩ :=
  .before (t := atom) rfl (completable_place roots _ holes)

theorem completable_binding (opening : Span) (bindings : List (LetBinding Expr))
    (holes : List Hole) (roots : List Expr) :
    Completable ⟨.binding opening bindings, holes, roots⟩ :=
  .before (t := closing) rfl (completable_expr _ roots)

/-- Whatever has been read, some tokens complete it. -/
theorem completable (s : State) : s.Completable := by
  obtain ⟨expected, holes, roots⟩ := s
  cases expected with
  | expr => exact completable_expr holes roots
  | bindingList opening =>
    exact .before (t := ⟨.openParen, ⟨0, 0⟩⟩) rfl (completable_binding opening [] holes roots)
  | binding opening bindings => exact completable_binding opening bindings holes roots
  | name opening bindings paren =>
    exact .before (t := ⟨.ident "x", ⟨0, 0⟩⟩) rfl (completable_expr _ roots)
  | bindingClose opening bindings paren name init =>
    exact .before (t := closing) rfl (completable_binding opening _ holes roots)
  | quoteClose opening datum => exact .before (t := closing) rfl (completable_place roots _ holes)

/-- A closing parenthesis is refused as misplaced. -/
theorem isMisplaced_of_readClose {roots : List Expr} {holes : List Hole} {span : Span}
    (h : readClose roots holes span = .error error) : error.fault.IsMisplaced := by
  unfold readClose at h
  split at h <;> cases h <;> simp [SyntaxFault.IsMisplaced]

/-- A token is refused for where it stands. -/
theorem isMisplaced_of_step (h : s.step t = .error error) : error.fault.IsMisplaced := by
  unfold step at h
  split at h
  next =>
    -- where an expression is expected, only a closing parenthesis can be wrong
    unfold readExpr at h
    split at h
    case h_6 => exact isMisplaced_of_readClose h
    all_goals cases h
  all_goals
    split at h <;> cases h
    simp [SyntaxFault.IsMisplaced]

theorem isMisplaced_of_steps (h : s.steps ts = .error error) : error.fault.IsMisplaced := by
  induction ts generalizing s with
  | nil => cases h
  | cons t ts ih =>
    rw [steps_cons] at h
    cases first : s.step t with
    | error refusal =>
      rw [first] at h
      cases h
      exact isMisplaced_of_step first
    | ok s' =>
      rw [first] at h
      exact ih h

/-- The end of the text is refused for coming too early. -/
theorem isIncomplete_of_finish (h : s.finish length = .error error) : error.fault.IsIncomplete := by
  unfold finish at h
  split at h
  next =>
    split at h <;> cases h <;> simp [SyntaxFault.IsIncomplete]
  all_goals
    cases h
    simp [SyntaxFault.IsIncomplete]

end State

open State

/-- The fault tells an incomplete text from a wrong one: tokens that are refused as incomplete are
those that some continuation completes to a program, and all others are refused for a token that is
misplaced, in the same way and at the same place whatever follows. -/
theorem incomplete_iff_extends {ts : List Token} {length : Nat} {error : SyntaxError}
    (refused : readTokens ts length = .error error) :
    (error.fault.IsIncomplete ↔
      ∃ us program, ∀ length, readTokens (ts ++ us) length = .ok program) ∧
    (¬error.fault.IsIncomplete → error.fault.IsMisplaced ∧
      ∀ us length, readTokens (ts ++ us) length = .error error) := by
  cases run : State.initial.steps ts with
  | ok s =>
    -- all tokens are read, so the refusal is that of the end of the text
    have ended : s.finish length = .error error := by
      have read : State.initial.readAll (ts ++ []) length = s.readAll [] length :=
        readAll_append_ok run []
      rw [List.append_nil] at read
      exact read.symm.trans refused
    have incomplete := isIncomplete_of_finish ended
    obtain ⟨us, program, completes⟩ := s.completable
    have accepted (length : Nat) : readTokens (ts ++ us) length = .ok program :=
      (readAll_append_ok run us).trans (completes length)
    exact ⟨iff_of_true incomplete ⟨us, program, accepted⟩, fun other => absurd incomplete other⟩
  | error refusal =>
    -- a token is refused, whatever comes behind it
    have always (us : List Token) (length : Nat) : readTokens (ts ++ us) length = .error refusal :=
      readAll_append_error run us
    have same : refusal = error := by
      have read := always [] length
      rw [List.append_nil, refused] at read
      exact (Except.error.inj read).symm
    subst same
    have misplaced := isMisplaced_of_steps run
    refine ⟨iff_of_false misplaced.not_incomplete ?_, fun _ => ⟨misplaced, always⟩⟩
    rintro ⟨us, program, accepted⟩
    exact nomatch (always us 0).symm.trans (accepted 0)

/-- A binding without its initial value can be completed. One that is closed without it cannot. -/
theorem incomplete_iff_extends_binding :
    let ts : List Token := [⟨.openParen, ⟨0, 1⟩⟩, ⟨.ident "let", ⟨1, 4⟩⟩, ⟨.openParen, ⟨5, 6⟩⟩,
      ⟨.openParen, ⟨6, 7⟩⟩, ⟨.ident "x", ⟨7, 8⟩⟩]
    let shut : List Token := ts ++ [⟨.closeParen, ⟨8, 9⟩⟩]
    (readTokens ts 8 = .error ⟨.unexpectedEnd, ⟨8, 8⟩⟩ ∧
      ∃ us program, ∀ length, readTokens (ts ++ us) length = .ok program) ∧
    readTokens shut 9 = .error ⟨.malformedLet .noInitializer, ⟨0, 1⟩⟩ ∧
      ∀ us length,
        readTokens (shut ++ us) length = .error ⟨.malformedLet .noInitializer, ⟨0, 1⟩⟩ := by
  intro ts shut
  have open_ : readTokens ts 8 = .error ⟨.unexpectedEnd, ⟨8, 8⟩⟩ := by rfl
  have wrong : readTokens shut 9 = .error ⟨.malformedLet .noInitializer, ⟨0, 1⟩⟩ := by rfl
  refine ⟨⟨open_, (incomplete_iff_extends open_).1.mp (.inr rfl)⟩, wrong, ?_⟩
  exact ((incomplete_iff_extends wrong).2 (by simp [SyntaxFault.IsIncomplete])).2

end Reader

end TwinLisp
