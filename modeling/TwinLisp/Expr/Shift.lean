import TwinLisp.Expr
import TwinLisp.Token

/-! Expressions that are moved to another place of a text. -/

namespace TwinLisp

/-- The same stretch of text with `n` more bytes before it. -/
def Span.shift (n : Nat) (s : Span) : Span :=
  ⟨s.start + n, s.stop + n⟩

def Token.mapSpan (f : Span → Span) (t : Token) : Token :=
  { t with span := f t.span }

/-- The token as it is scanned with `n` more bytes before it. -/
def Token.shift (n : Nat) (t : Token) : Token :=
  t.mapSpan (Span.shift n)

namespace Expr

mutual

def mapSpans (f : Span → Span) : Expr → Expr
  | .int value span => .int value (f span)
  | .str text span => .str text (f span)
  | .ident name span => .ident name (f span)
  | .quote datum style span => .quote (datum.mapSpans f) style (f span)
  | .list items span => .list (mapSpansAll f items) (f span)
  | .letIn bindings body span =>
    .letIn (mapSpansBindings f bindings) (mapSpansAll f body) (f span)

def mapSpansAll (f : Span → Span) : List Expr → List Expr
  | [] => []
  | e :: es => e.mapSpans f :: mapSpansAll f es

def mapSpansBindings (f : Span → Span) : List (LetBinding Expr) → List (LetBinding Expr)
  | [] => []
  | ⟨name, init, span⟩ :: bs => ⟨name, init.mapSpans f, f span⟩ :: mapSpansBindings f bs

end

/-- The expression as it is read with `n` more bytes before it. -/
def shift (n : Nat) (e : Expr) : Expr :=
  e.mapSpans (Span.shift n)

theorem span_mapSpans (f : Span → Span) (e : Expr) : (e.mapSpans f).span = f e.span := by
  cases e <;> rw [mapSpans, span, span]

theorem mapSpansAll_eq_map (f : Span → Span) (es : List Expr) :
    mapSpansAll f es = es.map (·.mapSpans f) := by
  induction es with
  | nil => rfl
  | cons e es ih => rw [mapSpansAll, List.map_cons, ih]

theorem mapSpansAll_shift (n : Nat) (es : List Expr) :
    mapSpansAll (Span.shift n) es = es.map (shift n) :=
  mapSpansAll_eq_map (Span.shift n) es

end Expr

end TwinLisp
