import TwinLisp.Token.Scan

/-!
How tokens are written down: each has a text of its own, and before it there may be a gap of blanks
and comments. Of the ways to begin a token, the one that takes the longest text counts.
-/

namespace TwinLisp

namespace Text.Decimal

/-- The text is an optional minus sign and one or more digits, and it says this number. -/
inductive Spells : List Char → Int → Prop
  | nat {digits} (nonempty : digits ≠ []) (each : ∀ c ∈ digits, c.isDigit) :
    Spells digits (Nat.ofDigitChars 10 digits 0)
  | neg {digits} (nonempty : digits ≠ []) (each : ∀ c ∈ digits, c.isDigit) :
    Spells ('-' :: digits) (-Nat.ofDigitChars 10 digits 0)

end Text.Decimal

open Text Scan

namespace Lexeme

/-- The text says this lexeme. -/
inductive Spells : Lexeme → List Char → Prop
  | openParen : Spells .openParen ['(']
  | closeParen : Spells .closeParen [')']
  | quoteMark : Spells .quoteMark [apostrophe]
  | int {n : Int64} {word} (number : Decimal.Spells word n.toInt) : Spells (.int n) word
  | str {body} (plain : '"' ∉ body) : Spells (.str (String.ofList body)) ('"' :: body ++ ['"'])
  | ident {word} (nonempty : word ≠ []) (chars : ∀ c ∈ word, isWordChar c)
    (noNumber : ∀ n, ¬Decimal.Spells word n) : Spells (.ident (String.ofList word)) word

/-- Lexemes that have a text of their own: a string has no double quote in it, and an identifier is
made of the characters of a word and has not the form of an integer. -/
def Writable : Lexeme → Prop
  | .str text => '"' ∉ text.toList
  | .ident name => name.toList ≠ [] ∧ (∀ c ∈ name.toList, isWordChar c) ∧
    ∀ n, ¬Decimal.Spells name.toList n
  | _ => True

/-- The text of a lexeme; integers are written in decimal. -/
def written : Lexeme → List Char
  | .openParen => ['(']
  | .closeParen => [')']
  | .quoteMark => [apostrophe]
  | .int n => (Decimal.text n).toList
  | .str text => '"' :: text.toList ++ ['"']
  | .ident name => name.toList

end Lexeme

namespace Layout

/-- The number of bytes that the characters take. -/
def width : List Char → Nat
  | [] => 0
  | c :: cs => c.utf8Size + width cs

/-- What may stand before a token: blanks, and comments that end with their line. -/
inductive Gap : List Char → Prop
  | nil : Gap []
  | blank {c cs} (blank : isSkipped c) (rest : Gap cs) : Gap (c :: cs)
  | comment {body cs} (line : '\n' ∉ body) (rest : Gap cs) : Gap (';' :: body ++ '\n' :: cs)

/-- What may stand behind the last token: here a comment may end with the text. -/
inductive Trailing : List Char → Prop
  | gap {cs} (gap : Gap cs) : Trailing cs
  | comment {cs body} (gap : Gap cs) (line : '\n' ∉ body) : Trailing (cs ++ ';' :: body)

/-- The texts that a rule for tokens takes; a string without its end is one, and is refused. -/
inductive Lexical : List Char → Prop
  | openParen : Lexical ['(']
  | closeParen : Lexical [')']
  | quoteMark : Lexical [apostrophe]
  | int {word n} (number : Decimal.Spells word n) : Lexical word
  | str {body} (plain : '"' ∉ body) : Lexical ('"' :: body ++ ['"'])
  | openStr {body} (plain : '"' ∉ body) : Lexical ('"' :: body)
  | ident {word} (nonempty : word ≠ []) (chars : ∀ c ∈ word, isWordChar c) : Lexical word

/-- A token as it is written, behind its gap. -/
structure Piece where
  gap : List Char
  word : List Char
  lexeme : Lexeme
  skipped : Gap gap
  spelled : lexeme.Spells word

def text (pieces : List Piece) : List Char :=
  pieces.flatMap fun p => p.gap ++ p.word

/-- The tokens of the pieces, if `offset` bytes are before them; `span` records their places. -/
def place (span : Nat → Nat → Span) (offset : Nat) : List Piece → List Token
  | [] => []
  | p :: ps =>
    let start := offset + width p.gap
    let stop := start + width p.word
    ⟨p.lexeme, span start stop⟩ :: place span stop ps

/-- No token could be longer: what a rule takes from where a token starts is not longer than it. -/
def Maximal (pieces : List Piece) (trailing : List Char) : Prop :=
  ∀ before p after, pieces = before ++ p :: after → ∀ taken,
    taken <+: p.word ++ (text after ++ trailing) → Lexical taken → taken.length ≤ p.word.length

end Layout

end TwinLisp
