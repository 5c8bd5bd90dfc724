import TwinLisp.Graph.Listing

/-!
What a global symbol in an assembly program stands for: it is written as an identifier, or between
quotation marks with escapes for any bytes.
-/

namespace TwinLisp.Graph

/-- The characters that an identifier can begin with. -/
def isIdentifierStart (c : Char) : Bool :=
  c.isAlpha || c == '-' || c == '$' || c == '.' || c == '_'

/-- An identifier: it begins with no digit, and digits are the only other characters that follow. -/
def IsIdentifier : List Char → Prop
  | [] => False
  | first :: rest =>
    isIdentifierStart first = true ∧ ∀ c ∈ rest, isIdentifierStart c = true ∨ c.isDigit = true

def hex? (c : Char) : Option Nat :=
  if c.isDigit then some (c.toNat - 48)
  else if 'A' ≤ c ∧ c ≤ 'F' then some (c.toNat - 55)
  else if 'a' ≤ c ∧ c ≤ 'f' then some (c.toNat - 87)
  else none

/-- The bytes that a text between quotation marks spells: a backslash and two hexadecimal digits are
one byte, and other printable ASCII is its code. -/
inductive Spells : List Char → List UInt8 → Prop
  | nil : Spells [] []
  | char {c text bytes} (printable : 32 ≤ c.toNat ∧ c.toNat ≤ 126) (noQuote : c ≠ '"')
    (noBackslash : c ≠ '\\') (rest : Spells text bytes) :
    Spells (c :: text) (.ofNat c.toNat :: bytes)
  | escape {high low text bytes} {h l : Nat} (first : hex? high = some h) (second : hex? low = some l)
    (rest : Spells text bytes) :
    Spells ('\\' :: high :: low :: text) (.ofNat (16 * h + l) :: bytes)

/-- The text is the global symbol of the name. -/
inductive Denotes (name : String) : List Char → Prop
  | identifier (identifier : IsIdentifier name.toList) : Denotes name ('@' :: name.toList)
  | quoted {text} (spelled : Spells text (utf8Bytes name)) :
    Denotes name ('@' :: '"' :: text ++ ['"'])

/-- The name begins with a digit, and nothing in it calls for quotation marks. -/
def LeadsWithDigit (name : String) : Prop :=
  ∃ first rest, name.toList = first :: rest ∧ first.isDigit = true ∧
    ∀ c ∈ rest, c.isAlphanum = true ∨ c = '_' ∨ c = '.' ∨ c = '$'

end TwinLisp.Graph
