import TwinLisp.Text.Blank

/-! The lines of a text, as reports show them. -/

namespace TwinLisp.Report

/-- Whether a line ends after `c`; a carriage return waits for a line feed that follows it. -/
def endsLine (c : Char) (next : Option Char) : Bool :=
  c == '\n' || c == '\x0b' || c == '\x0c' || (c == '\r' && next != some '\n')

/-- The lines of a text, each with the characters that end it. -/
def splitLines : List Char → List (List Char)
  | [] => []
  | c :: cs =>
    if endsLine c cs.head? then [c] :: splitLines cs
    else
      -- the character belongs to the line that follows, which may not have begun yet
      match splitLines cs with
      | [] => [[c]]
      | line :: lines => (c :: line) :: lines

theorem flatten_splitLines (cs : List Char) : (splitLines cs).flatten = cs := by
  induction cs with
  | nil => rfl
  | cons c cs ih =>
    simp only [splitLines]
    split
    · simp [ih]
    · split <;> simp_all

/-- A line of a text: its number from 1, where it starts, and its characters. -/
structure Line where
  number : Nat
  offset : Nat
  chars : List Char

/-- The line that holds a position, from the lines that start at `here`; the end of the text
belongs to the last line. -/
def lineFrom (position : Nat) (here : Line) : List (List Char) → Line
  | [] => here
  | chars :: rest =>
    let next := here.offset + here.chars.length
    if position < next then here else lineFrom position ⟨here.number + 1, next, chars⟩ rest

def lineAt (source : List Char) (position : Nat) : Line :=
  match splitLines source with
  | [] => ⟨1, 0, []⟩
  | chars :: rest => lineFrom position ⟨1, 0, chars⟩ rest

namespace Line

/-- The characters of a line up to its last one that is not blank. -/
def trimmed (line : Line) : List Char :=
  (line.chars.reverse.dropWhile Text.isBlank).reverse

/-- How many columns a character takes: a tab goes on to the next multiple of four. -/
def width (c : Char) (column : Nat) : Nat :=
  if c == '\t' then 4 - column % 4 else 1

/-- The text of a line: blanks are shown as spaces. -/
def text (line : Line) : String :=
  String.ofList (line.trimmed.zipIdx.flatMap fun (c, column) =>
    List.replicate (width c column) (if Text.isBlank c then ' ' else c))

/-- How many columns the character at `column` takes; there are spaces behind the line. -/
def widthAt (line : Line) (column : Nat) : Nat :=
  match line.trimmed[column]? with
  | some c => width c column
  | none => 1

end Line

end TwinLisp.Report
