import TwinLisp.Reader.Grammar

/-! Where there are apostrophes in derivable tokens: each stands before a datum. -/

namespace TwinLisp.Reader

/-- Behind every apostrophe among the tokens there is a datum. -/
def Answered (ts : List Token) : Prop :=
  ∀ xs mark ys, ts = xs ++ mark :: ys → mark.lexeme = .quoteMark →
    ∃ zs us d, ys = zs ++ us ∧ Derives .datum zs d

variable {t : Token} {ts us : List Token} {lexeme : Lexeme} {d : Expr}

theorem answered_nil : Answered [] :=
  fun _ _ _ split => absurd split (by simp)

theorem Answered.cons (rest : Answered ts) (token : t.lexeme = lexeme) (other : lexeme ≠ .quoteMark) :
    Answered (t :: ts) := by
  intro xs mark ys split quotes
  cases xs with
  | nil =>
    cases split
    exact absurd (token.symm.trans quotes) other
  | cons x xs => exact rest xs mark ys (List.cons.inj split).2 quotes

/-- An apostrophe in front of a datum is answered by it. -/
theorem answered_mark (datum : Derives .datum ts d) (rest : Answered ts) : Answered (t :: ts) := by
  intro xs mark ys split quotes
  cases xs with
  | nil =>
    cases split
    exact ⟨ts, [], d, (List.append_nil ts).symm, datum⟩
  | cons x xs => exact rest xs mark ys (List.cons.inj split).2 quotes

theorem Answered.append (first : Answered ts) (rest : Answered us) : Answered (ts ++ us) := by
  intro xs mark ys split quotes
  rcases List.append_eq_append_iff.mp split with ⟨as, rfl, behind⟩ | ⟨as, rfl, behind⟩
  · exact rest as mark ys behind quotes
  · cases as with
    | nil => exact rest [] mark ys behind.symm quotes
    | cons a as =>
      obtain ⟨rfl, rfl⟩ := List.cons.inj behind
      obtain ⟨zs, more, d, rfl, datum⟩ := first xs mark as rfl quotes
      exact ⟨zs, more ++ us, d, List.append_assoc .., datum⟩

mutual

/-- In what is derived every apostrophe has its datum, at any depth. -/
theorem Derives.answered : ∀ {mode : Mode} {ts : List Token} {e : Expr}, Derives mode ts e →
    Answered ts
  | _, _, _, .int token => answered_nil.cons token nofun
  | _, _, _, .str token => answered_nil.cons token nofun
  | _, _, _, .ident token => answered_nil.cons token nofun
  | _, _, _, .quoted _ datum => answered_mark datum datum.answered
  | _, _, _, .list opened _ items closed =>
    (items.answered.cons opened nofun).append (answered_nil.cons closed nofun)
  | _, _, _, .letIn opened word opened' bound closed' body _ closed => by
    -- the bindings with what is in front of them, and then the body
    have front := ((bound.answered.cons opened' nofun).cons word nofun).cons opened nofun
    have back := body.answered.cons closed' nofun
    exact (front.append back).append (answered_nil.cons closed nofun)
  | _, _, _, .longQuoted opened word datum closed =>
    ((datum.answered.cons word nofun).cons opened nofun).append (answered_nil.cons closed nofun)

theorem DerivesAll.answered : ∀ {mode : Mode} {ts : List Token} {es : List Expr},
    DerivesAll mode ts es → Answered ts
  | _, _, _, .nil => answered_nil
  | _, _, _, .cons first rest => first.answered.append rest.answered

theorem DerivesBindings.answered : ∀ {ts : List Token} {bindings : List (LetBinding Expr)},
    DerivesBindings ts bindings → Answered ts
  | _, _, .nil => answered_nil
  | _, _, .cons opened named value closed rest =>
    ((value.answered.cons named nofun).cons opened nofun).append (rest.answered.cons closed nofun)

end

end TwinLisp.Reader
