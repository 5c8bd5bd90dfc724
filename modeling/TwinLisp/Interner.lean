import TwinLisp.Table
import TwinLisp.Token

/-! A numbering of texts: each distinct text gets the next free number once. -/

namespace TwinLisp

/-- Texts by number and numbers by text; the empty text has number 0. -/
structure Interner where
  texts : Array String := #[""]
  numbers : Table Nat := [("", 0)]

namespace Interner

def intern (t : Interner) (text : String) : Nat × Interner :=
  match t.numbers.get? text with
  | some id => (id, t)
  | none => (t.texts.size, ⟨t.texts.push text, (text, t.texts.size) :: t.numbers⟩)

/-- The text of a number; numbers not given out yet have the empty text. -/
def lookup (t : Interner) (id : Nat) : String :=
  t.texts[id]?.getD ""

def size (t : Interner) : Nat :=
  t.texts.size

def isEmpty (t : Interner) : Bool :=
  t.size == 0

def internAll (t : Interner) (texts : List String) : Interner :=
  texts.foldl (fun t text => (t.intern text).2) t

/-- The numbers of texts that are interned in order, and the tables that hold them. -/
def internEach (t : Interner) : List String → List Nat × Interner
  | [] => ([], t)
  | text :: texts =>
    let (id, t) := t.intern text
    let (ids, t) := t.internEach texts
    (id :: ids, t)

def ofTokens (tokens : List Token) : Interner :=
  internAll {} (tokens.filterMap (·.lexeme.text?))

end Interner

end TwinLisp
