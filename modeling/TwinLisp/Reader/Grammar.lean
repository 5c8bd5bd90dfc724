import TwinLisp.Reader.State

/-!
The grammar of programs, as derivations that give each token list its tree:

    program := expr*
    expr    := INT | STR | IDENT | quoted | "(" "let" "(" binding* ")" expr+ ")"
             | "(" "quote" datum ")" | "(" expr* ")"
    binding := "(" IDENT expr ")"
    datum   := INT | STR | IDENT | quoted | "(" datum* ")"
    quoted  := apostrophe datum

A list of expressions does not begin with the words `let` and `quote`.
-/

namespace TwinLisp.Reader

/-- The tokens do not begin with a word that makes a list of code a form of its own. -/
def Plain (ts : List Token) : Prop :=
  ∀ t ∈ ts.head?, t.lexeme ≠ .ident "let" ∧ t.lexeme ≠ .ident "quote"

mutual

/-- `Derives mode ts e`: the tokens are an expression or a datum, and `e` is its tree. -/
inductive Derives : Mode → List Token → Expr → Prop
  | int {mode t n} (token : t.lexeme = .int n) : Derives mode [t] (.int n t.span)
  | str {mode t text} (token : t.lexeme = .str text) : Derives mode [t] (.str text t.span)
  | ident {mode t name} (token : t.lexeme = .ident name) : Derives mode [t] (.ident name t.span)
  | quoted {mode mark ts e} (token : mark.lexeme = .quoteMark) (datum : Derives .datum ts e) :
    Derives mode (mark :: ts) (.quote e .short (mark.span.merge e.span))
  | list {mode opening ts es closing} (opened : opening.lexeme = .openParen)
    (plain : mode = .code → Plain ts) (items : DerivesAll mode ts es)
    (closed : closing.lexeme = .closeParen) :
    Derives mode (opening :: ts ++ [closing]) (.list es (opening.span.merge closing.span))
  | letIn {opening head opening' ts bindings closing' us es closing}
    (opened : opening.lexeme = .openParen) (word : head.lexeme = .ident "let")
    (opened' : opening'.lexeme = .openParen) (bound : DerivesBindings ts bindings)
    (closed' : closing'.lexeme = .closeParen) (body : DerivesAll .code us es)
    (nonempty : es ≠ []) (closed : closing.lexeme = .closeParen) :
    Derives .code (opening :: head :: opening' :: ts ++ closing' :: us ++ [closing])
      (.letIn bindings es (opening.span.merge closing.span))
  | longQuoted {opening head ts e closing} (opened : opening.lexeme = .openParen)
    (word : head.lexeme = .ident "quote") (datum : Derives .datum ts e)
    (closed : closing.lexeme = .closeParen) :
    Derives .code (opening :: head :: ts ++ [closing])
      (.quote e .long (opening.span.merge closing.span))

/-- The tokens are expressions, or data, one after the other. -/
inductive DerivesAll : Mode → List Token → List Expr → Prop
  | nil {mode} : DerivesAll mode [] []
  | cons {mode ts e us es} (first : Derives mode ts e) (rest : DerivesAll mode us es) :
    DerivesAll mode (ts ++ us) (e :: es)

/-- The tokens are the bindings of a `let` form. -/
inductive DerivesBindings : List Token → List (LetBinding Expr) → Prop
  | nil : DerivesBindings [] []
  | cons {opening word name ts init closing us bindings} (opened : opening.lexeme = .openParen)
    (named : word.lexeme = .ident name) (value : Derives .code ts init)
    (closed : closing.lexeme = .closeParen) (rest : DerivesBindings us bindings) :
    DerivesBindings (opening :: word :: ts ++ closing :: us)
      (⟨name, init, opening.span.merge closing.span⟩ :: bindings)

end

abbrev DerivesProgram (ts : List Token) (program : List Expr) : Prop :=
  DerivesAll .code ts program

end TwinLisp.Reader
