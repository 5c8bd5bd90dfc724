import TwinLisp.Proofs.Reader.Sound

/-! The reader reads exactly the programs of the grammar, and the grammar is unambiguous. -/

namespace TwinLisp.Reader

open State

variable {mode : Mode} {ts us xs ys : List Token} {e e' : Expr}

/-- A hole that takes one expression and then nothing but a closing parenthesis. -/
def Mode.closedHole : Mode → Hole
  | .code => .init ⟨0, 0⟩ [] ⟨0, 0⟩ ""
  | .datum => .longQuote ⟨0, 0⟩

theorem Mode.mode_closedHole (mode : Mode) : State.mode [mode.closedHole] = mode := by
  cases mode <;> rfl

theorem Mode.fits_closedHole (mode : Mode) (ts : List Token) : Fits [mode.closedHole] ts := by
  cases mode <;> exact fun _ _ h => nomatch h

/-- Holes in which a closing parenthesis may not follow an expression. -/
def Mode.openHoles : Mode → List Hole
  | .code => []
  | .datum => [.quote ⟨0, 0⟩]

theorem Mode.mode_openHoles (mode : Mode) : State.mode mode.openHoles = mode := by
  cases mode <;> rfl

theorem Mode.fits_openHoles (mode : Mode) (ts : List Token) : Fits mode.openHoles ts := by
  cases mode <;> exact fun _ _ h => nomatch h

/-- No expression continues another: after the first, one context refuses a closing parenthesis
and one refuses every other token. -/
theorem Derives.not_append_cons {t : Token} (h : Derives mode ts e) :
    ¬ Derives mode (ts ++ t :: us) e' := by
  intro longer
  have read (holes : List Hole) (hmode : State.mode holes = mode)
      (fits : Fits holes (ts ++ t :: us)) :
      (place [] e holes).steps (t :: us) = .ok (place [] e' holes) := by
    rw [← h.steps [] holes (t :: us) hmode fits.of_append]
    have whole := longer.steps [] holes [] hmode fits
    rwa [List.append_nil] at whole
  -- behind a whole expression a parenthesis cannot close, and
  -- nothing else can follow, in holes made for that
  by_cases closing : t.lexeme = .closeParen
  · have refused := read mode.openHoles mode.mode_openHoles (mode.fits_openHoles _)
    rw [steps_cons] at refused
    cases mode <;>
      simp [Mode.openHoles, place, step, readExpr, closing, readClose, Except.bind] at refused
  · have refused := read [mode.closedHole] mode.mode_closedHole (mode.fits_closedHole _)
    rw [steps_cons] at refused
    cases mode <;> simp [Mode.closedHole, place, step, Except.bind] at refused

/-- From a given token on there is at most one expression, with one tree. -/
theorem Derives.unique (h : Derives mode ts e) (h' : Derives mode us e')
    (same : ts ++ xs = us ++ ys) : ts = us ∧ e = e' := by
  -- of two derivations that begin together neither is longer
  have extent : ts = us := by
    rcases List.append_eq_append_iff.mp same with ⟨as, rfl, -⟩ | ⟨as, rfl, -⟩
    · cases as with
      | nil => rw [List.append_nil]
      | cons t as => exact absurd h' h.not_append_cons
    · cases as with
      | nil => rw [List.append_nil]
      | cons t as => exact absurd h h'.not_append_cons
  subst extent
  refine ⟨rfl, ?_⟩
  have read (e : Expr) (h : Derives mode ts e) :
      State.steps ⟨.expr, [mode.closedHole], []⟩ ts = .ok (place [] e [mode.closedHole]) := by
    have := h.steps [] [mode.closedHole] [] mode.mode_closedHole (mode.fits_closedHole ts)
    rwa [List.append_nil] at this
  have trees := (read e h).symm.trans (read e' h')
  cases mode <;> simpa [Mode.closedHole, place] using trees

/-- The reader succeeds exactly on the token lists of the grammar, and returns the tree of their
derivation; the tree is unique, and so is the expression that begins at a token. -/
theorem readTokens_ok_iff_derives :
    (∀ ts length program, readTokens ts length = .ok program ↔ DerivesProgram ts program) ∧
    (∀ ts program program', DerivesProgram ts program → DerivesProgram ts program' →
      program = program') ∧
    ∀ mode ts us xs ys e e', Derives mode ts e → Derives mode us e' → ts ++ xs = us ++ ys →
      ts = us ∧ e = e' := by
  refine ⟨fun ts length program => ⟨derives_of_readTokens, (readTokens_of_derives · length)⟩,
    fun ts program program' h h' => ?_, fun _ _ _ _ _ _ _ h h' same => h.unique h' same⟩
  exact Except.ok.inj ((readTokens_of_derives h 0).symm.trans (readTokens_of_derives h' 0))

/-- Inside quoted data the word `let` is a word like any other. -/
theorem derives_quoted_let :
    let tokens : List Token := [⟨.openParen, ⟨0, 1⟩⟩, ⟨.ident "quote", ⟨1, 6⟩⟩, ⟨.openParen, ⟨7, 8⟩⟩,
      ⟨.ident "let", ⟨8, 11⟩⟩, ⟨.closeParen, ⟨11, 12⟩⟩, ⟨.closeParen, ⟨12, 13⟩⟩]
    DerivesProgram tokens [.quote (.list [.ident "let" ⟨8, 11⟩] ⟨7, 12⟩) .long ⟨0, 13⟩] := by
  intro tokens
  have read : readTokens tokens 13
      = .ok [.quote (.list [.ident "let" ⟨8, 11⟩] ⟨7, 12⟩) .long ⟨0, 13⟩] := by rfl
  exact (readTokens_ok_iff_derives.1 tokens 13 _).mp read

end TwinLisp.Reader
