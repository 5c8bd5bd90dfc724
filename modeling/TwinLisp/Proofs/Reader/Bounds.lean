import TwinLisp.Proofs.Reader.Spans
import TwinLisp.Proofs.Token.Bounds

/-!
What the reader reports stands in the text: it is the place of a token, one that it remembers or the one
at hand, or the end of the text. And so do the nodes of a program.
-/

namespace TwinLisp.Reader

/-- The places of the tokens that a hole remembers. -/
def Hole.marks : Hole → List Span
  | quote mark => [mark]
  | list _ opening _ | longQuote opening | body opening _ _ => [opening]
  | init opening _ paren _ => [opening, paren]

/-- The places of the tokens that are remembered for what is expected. -/
def Expected.marks : Expected → List Span
  | expr => []
  | bindingList opening | binding opening _ | quoteClose opening _ => [opening]
  | name opening _ paren | bindingClose opening _ paren _ _ => [opening, paren]

namespace State

/-- The places of the tokens that the reader remembers. -/
def marks (s : State) : List Span :=
  s.expected.marks ++ s.holes.flatMap Hole.marks

variable {P : Span → Prop} {s : State} {t : Token} {ts us : List Token} {e : SyntaxError}
  {holes : List Hole} {roots : List Expr} {length : Nat}

/-! What is remembered is the place of a token. -/

theorem OpensLet.mark {opening : Span} {bindings : List (LetBinding Expr)}
    (form : OpensLet opening bindings ts) (each : ∀ t ∈ ts, P t.span) : P opening := by
  cases form with
  | mk => exact each _ List.mem_cons_self

/-- The marks of the holes are tokens that were read. -/
theorem Context.marks (context : Context holes roots ts) (each : ∀ t ∈ ts, P t.span) :
    ∀ span ∈ holes.flatMap Hole.marks, P span := by
  -- every hole remembers the token that opened it, a binding also the one that opened the `let`
  induction context with
  | nil => exact nofun
  | quote _ _ ih =>
    obtain ⟨before, mark⟩ := List.forall_mem_append.mp each
    exact List.forall_mem_cons.mpr ⟨mark _ List.mem_cons_self, ih before⟩
  | list _ _ _ _ ih =>
    obtain ⟨before, inner⟩ := List.forall_mem_append.mp each
    exact List.forall_mem_cons.mpr ⟨inner _ List.mem_cons_self, ih before⟩
  | longQuote _ _ _ _ ih =>
    obtain ⟨before, inner⟩ := List.forall_mem_append.mp each
    exact List.forall_mem_cons.mpr ⟨inner _ List.mem_cons_self, ih before⟩
  | init _ _ form _ _ ih =>
    obtain ⟨before, binding⟩ := List.forall_mem_append.mp each
    obtain ⟨before, opens⟩ := List.forall_mem_append.mp before
    exact List.forall_mem_cons.mpr ⟨form.mark opens,
      List.forall_mem_cons.mpr ⟨binding _ List.mem_cons_self, ih before⟩⟩
  | body _ _ form _ _ ih =>
    obtain ⟨before, -⟩ := List.forall_mem_append.mp each
    obtain ⟨before, opens⟩ := List.forall_mem_append.mp before
    exact List.forall_mem_cons.mpr ⟨form.mark opens, ih before⟩

theorem Spells.marks (spells : Spells s ts) (each : ∀ t ∈ ts, P t.span) : ∀ span ∈ s.marks, P span := by
  refine List.forall_mem_append.mpr ?_
  -- by what is expected: each state holds the tokens that opened its forms
  cases spells with
  | expr context => exact ⟨nofun, context.marks each⟩
  | bindingList outer =>
    obtain ⟨before, inner⟩ := List.forall_mem_append.mp each
    exact ⟨List.forall_mem_singleton.mpr (inner _ List.mem_cons_self), outer.marks before⟩
  | binding outer _ form =>
    obtain ⟨before, opens⟩ := List.forall_mem_append.mp each
    exact ⟨List.forall_mem_singleton.mpr (form.mark opens), outer.marks before⟩
  | name outer _ form =>
    obtain ⟨before, paren⟩ := List.forall_mem_append.mp each
    obtain ⟨before, opens⟩ := List.forall_mem_append.mp before
    exact ⟨List.forall_mem_cons.mpr ⟨form.mark opens, List.forall_mem_singleton.mpr
      (paren _ List.mem_cons_self)⟩, outer.marks before⟩
  | bindingClose outer _ form =>
    obtain ⟨before, binding⟩ := List.forall_mem_append.mp each
    obtain ⟨before, opens⟩ := List.forall_mem_append.mp before
    exact ⟨List.forall_mem_cons.mpr ⟨form.mark opens, List.forall_mem_singleton.mpr
      (binding _ List.mem_cons_self)⟩, outer.marks before⟩
  | quoteClose outer =>
    obtain ⟨before, inner⟩ := List.forall_mem_append.mp each
    exact ⟨List.forall_mem_singleton.mpr (inner _ List.mem_cons_self), outer.marks before⟩

/-! What is reported is remembered or at hand. -/

theorem span_of_readClose {span : Span} (refused : readClose roots holes span = .error e) :
    e.span = span ∨ e.span ∈ holes.flatMap Hole.marks := by
  unfold readClose at refused
  split at refused <;> cases refused <;> simp [Hole.marks]

theorem span_of_step (refused : s.step t = .error e) : e.span = t.span ∨ e.span ∈ s.marks := by
  obtain ⟨expected, holes, roots⟩ := s
  unfold step at refused
  split at refused
  next here =>
    cases here
    -- where an expression is expected, only a closing parenthesis is refused
    unfold readExpr at refused
    split at refused
    case h_6 => exact (span_of_readClose refused).imp_right (List.mem_append_right _)
    all_goals cases refused
  all_goals
    rename_i here
    cases here
    split at refused <;> cases refused
    simp [marks, Expected.marks]

/-- The end of a text is blamed on its length or on an opening token. -/
theorem span_of_finish (refused : s.finish length = .error e) :
    e.span = .ofOffsets length length ∨ e.span ∈ s.marks := by
  obtain ⟨expected, holes, roots⟩ := s
  unfold finish at refused
  split at refused
  next here =>
    cases here
    split at refused <;> rename_i held <;> cases held <;> cases refused <;> simp [marks, Hole.marks]
  all_goals
    rename_i here
    cases here
    cases refused
    simp [marks, Expected.marks]

/-- By induction on the tokens that are still to be read. -/
theorem span_of_steps (spells : Spells s ts) (each : ∀ t ∈ ts ++ us, P t.span)
    (refused : s.steps us = .error e) : P e.span := by
  induction us generalizing s ts with
  | nil => cases refused
  | cons t us ih =>
    rw [steps_cons] at refused
    cases next : s.step t with
    | error e' =>
      rw [next] at refused
      cases refused
      -- what is remembered are tokens that have been read, the token at hand is the next one
      obtain ⟨before, behind⟩ := List.forall_mem_append.mp each
      rcases span_of_step next with here | marked
      · exact here ▸ behind t List.mem_cons_self
      · exact spells.marks before e.span marked
    | ok s' =>
      rw [next] at refused
      refine ih (spells_step spells next) ?_ refused
      rwa [List.append_assoc]

end State

open State

variable {mode : Mode} {ts : List Token} {e : Expr} {program : List Expr} {size : Nat}

/-- An arrangement of tokens is refused at one of them, or at the end of the text. -/
theorem span_of_readTokens {P : Span → Prop} {length : Nat} {error : SyntaxError}
    (each : ∀ t ∈ ts, P t.span) (atEnd : P (.ofOffsets length length))
    (refused : readTokens ts length = .error error) : P error.span := by
  have start : Spells initial [] := .expr (.nil .nil)
  change (initial.steps ts).bind (·.finish length) = .error error at refused
  cases run : initial.steps ts with
  | error error' =>
    rw [run] at refused
    cases refused
    exact span_of_steps start each run
  | ok s =>
    rw [run] at refused
    rcases span_of_finish refused with here | marked
    · exact here ▸ atEnd
    · exact (spells_steps start run).marks each error.span marked

/-- What is reported of a text stands in it. -/
theorem within_of_read_error {source : String} {error : SyntaxError} (refused : read source = .error error) :
    error.span.Within source.utf8ByteSize := by
  obtain ⟨tokens, faults⟩ := Scan.within_tokens source
  unfold read at refused
  cases scanned : Scan.tokens source with
  | error error' =>
    rw [scanned] at refused
    cases refused
    exact faults error scanned
  | ok ts =>
    rw [scanned] at refused
    refine span_of_readTokens (P := (·.Within source.utf8ByteSize)) (tokens ts scanned) ?_ refused
    exact Span.within_ofOffsets (Nat.le_refl _) (Nat.le_refl _)

/-- An expression stands where its tokens do. -/
theorem Derives.within : ∀ {mode : Mode} {ts : List Token} {e : Expr}, Derives mode ts e →
    (∀ t ∈ ts, t.span.Within size) → e.span.Within size
  | _, _, _, .int _, each | _, _, _, .str _, each | _, _, _, .ident _, each =>
    each _ List.mem_cons_self
  | _, _, _, .quoted _ datum, each =>
    (each _ List.mem_cons_self).merge (datum.within fun t mem => each t (List.mem_cons_of_mem _ mem))
  | _, _, _, .list .., each | _, _, _, .letIn .., each | _, _, _, .longQuoted .., each =>
    (each _ (by simp)).merge (each _ (by simp))

/-- The nodes of a program stand in its text. -/
theorem Occurs.within {source : String} (read : read source = .ok program)
    (node : Occurs program mode e) : e.span.Within source.utf8ByteSize := by
  obtain ⟨ts, scanned, arranged⟩ := except_bind_ok_iff.mp read
  obtain ⟨us, part, derives⟩ := node.exists_tokens (derives_of_readTokens arranged)
  exact derives.within fun t mem => (Scan.within_tokens source).1 ts scanned t (part.subset mem)

end TwinLisp.Reader
