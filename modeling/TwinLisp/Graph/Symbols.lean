import TwinLisp.Graph.Listing

/-!
The global symbols of a listing, as they are read from its lines: a line for a string constant or for
a function introduces one, every other line only mentions symbols.
-/

namespace TwinLisp.Graph

def hexValue (c : Char) : Nat :=
  if c.isDigit then c.toNat - 48 else c.toNat - 55

/-- The bytes that an escaped text stands for. -/
def unescape : List Char → List UInt8
  | '\\' :: high :: low :: rest => .ofNat (16 * hexValue high + hexValue low) :: unescape rest
  | c :: rest => .ofNat c.toNat :: unescape rest
  | [] => []

/-- The bytes of the symbol that a text begins with. -/
def symbolAt : List Char → Option (List UInt8)
  | '@' :: '"' :: rest => some (unescape (rest.takeWhile (· ≠ '"')))
  | '@' :: rest => some ((rest.takeWhile isPlainChar).flatMap String.utf8EncodeChar)
  | _ => none

/-- The symbol that a line introduces. -/
def introduced (line : String) : Option (List UInt8) :=
  let text := line.toList
  if "declare ".toList.isPrefixOf text || "define ".toList.isPrefixOf text then
    -- types stand between the word and the symbol
    symbolAt (text.dropWhile (· ≠ '@'))
  else symbolAt text

def stringName (id : StringId) : String :=
  ".str." ++ toString id

namespace Module

/-- The symbols that the listing introduces, line by line. -/
def symbols (m : Module) : List (List UInt8) :=
  m.listingLines.filterMap introduced

/-- The names of the string constants and of the functions that every listing declares. -/
def fixedNames (m : Module) : List String :=
  (List.range m.strings.size).map stringName ++ ["print_i64", "print_str"]

end Module

end TwinLisp.Graph
