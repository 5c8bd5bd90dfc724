import TwinLisp.Expr.Shift
import TwinLisp.Proofs.Reader.Exact

/-! Tokens in other places are read as the same trees in other places. -/

namespace TwinLisp

namespace Span

/-- The span that covers two others goes to the one that covers what those go to. -/
def Merges (f : Span → Span) : Prop :=
  ∀ a b : Span, f (a.merge b) = (f a).merge (f b)

theorem merges_shift (n : Nat) : Merges (shift n) := by
  intro a b
  simp only [shift, merge, Nat.add_min_add_right, Nat.add_max_add_right]

/-- The same stretch of text with `n` bytes less before it. -/
def unshift (n : Nat) (s : Span) : Span :=
  ⟨s.start - n, s.stop - n⟩

theorem merges_unshift (n : Nat) : Merges (unshift n) := by
  intro a b
  simp only [unshift, merge, Span.mk.injEq]
  omega

theorem unshift_shift (n : Nat) (s : Span) : (s.shift n).unshift n = s := by
  simp only [shift, unshift, Nat.add_sub_cancel]

end Span

namespace Reader

variable {f : Span → Span} {ts : List Token}

theorem plain_mapSpan (h : Plain ts) : Plain (ts.map (·.mapSpan f)) := by
  cases ts with
  | nil => exact h
  | cons t ts =>
    rintro _ ⟨⟩
    exact h t rfl

mutual

/-- An expression can be derived at any place, if spans are moved so that they merge alike. -/
theorem Derives.mapSpans (merges : Span.Merges f) : ∀ {mode : Mode} {ts : List Token} {e : Expr},
    Derives mode ts e → Derives mode (ts.map (·.mapSpan f)) (e.mapSpans f)
  | _, _, _, .int token => .int token
  | _, _, _, .str token => .str token
  | _, _, _, .ident token => .ident token
  -- the span of a node is merged of those of its tokens, so it moves with them
  | _, _, _, .quoted token datum => by
    rw [Expr.mapSpans, merges, ← Expr.span_mapSpans f]
    exact .quoted token (datum.mapSpans merges)
  | _, _, _, .list opened plain items closed => by
    rw [Expr.mapSpans, merges, List.map_append]
    exact .list opened (fun code => plain_mapSpan (plain code)) (items.mapSpans merges) closed
  | _, _, _, .letIn opened word opened' bound closed' body nonempty closed => by
    rw [Expr.mapSpans, merges, List.map_append, List.map_append]
    refine .letIn opened word opened' (bound.mapSpans merges) closed' (body.mapSpans merges) ?_ closed
    rw [Expr.mapSpansAll_eq_map]
    exact mt List.map_eq_nil_iff.mp nonempty
  | _, _, _, .longQuoted opened word datum closed => by
    rw [Expr.mapSpans, merges, List.map_append]
    exact .longQuoted opened word (datum.mapSpans merges) closed

theorem DerivesAll.mapSpans (merges : Span.Merges f) : ∀ {mode : Mode} {ts : List Token}
    {es : List Expr}, DerivesAll mode ts es →
      DerivesAll mode (ts.map (·.mapSpan f)) (Expr.mapSpansAll f es)
  | _, _, _, .nil => .nil
  | _, _, _, .cons first rest => by
    rw [List.map_append, Expr.mapSpansAll]
    exact .cons (first.mapSpans merges) (rest.mapSpans merges)

theorem DerivesBindings.mapSpans (merges : Span.Merges f) : ∀ {ts : List Token}
    {bindings : List (LetBinding Expr)}, DerivesBindings ts bindings →
      DerivesBindings (ts.map (·.mapSpan f)) (Expr.mapSpansBindings f bindings)
  | _, _, .nil => .nil
  | _, _, .cons opened named value closed rest => by
    rw [List.map_append, Expr.mapSpansBindings, merges]
    exact .cons opened named (value.mapSpans merges) closed (rest.mapSpans merges)

end

variable {mode : Mode} {e : Expr} {es : List Expr} {n : Nat}

theorem Derives.shift (h : Derives mode ts e) (n : Nat) :
    Derives mode (ts.map (Token.shift n)) (e.shift n) :=
  h.mapSpans (Span.merges_shift n)

theorem DerivesAll.shift (h : DerivesAll mode ts es) (n : Nat) :
    DerivesAll mode (ts.map (Token.shift n)) (es.map (Expr.shift n)) := by
  have moved := h.mapSpans (Span.merges_shift n)
  rwa [Expr.mapSpansAll_shift] at moved

/-- What is read from tokens with more bytes before them is read without these, too. -/
theorem Derives.of_shift (h : Derives mode (ts.map (Token.shift n)) e) :
    ∃ e', Derives mode ts e' ∧ e'.shift n = e := by
  have back : (ts.map (Token.shift n)).map (Token.mapSpan (Span.unshift n)) = ts := by
    rw [List.map_map]
    refine List.map_id'' (fun t => ?_) ts
    simp only [Function.comp_apply, Token.shift, Token.mapSpan, Span.unshift_shift]
  -- Moved back and forth, the tokens are the same, and so is what they derive.
  have moved := h.mapSpans (Span.merges_unshift n)
  rw [back] at moved
  have same : ts.map (Token.shift n) ++ [] = ts.map (Token.shift n) ++ [] := rfl
  exact ⟨_, moved, ((moved.shift n).unique h same).2⟩

end Reader

end TwinLisp
