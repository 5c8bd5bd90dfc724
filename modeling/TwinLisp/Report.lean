import TwinLisp.Graph.Lowering
import TwinLisp.Report.Lines
import TwinLisp.SyntaxError

/-! Reports: an error drawn under the source text that it points into. -/

namespace TwinLisp

/-- An error as a report shows it: `label` stands at the marked text. -/
structure Diagnosis where
  message : String
  span : Option Span
  label : String

namespace Diagnosis

def ofSyntax (e : SyntaxError) : Diagnosis :=
  ⟨e.message, some e.span, "while reading this"⟩

def ofEval (e : EvalError) : Diagnosis :=
  ⟨e.fault.message, e.span, "while evaluating this"⟩

def ofLower (e : Graph.LowerError) : Diagnosis :=
  ⟨e.message, e.span?, "while lowering this"⟩

end Diagnosis

/-- Keeps a span inside a text of `length` bytes. -/
def Span.clamp (s : Span) (length : Nat) : Span :=
  -- first the end, so that the start does not come to lie behind it
  let stop := min s.stop length
  ⟨min s.start stop, stop⟩

namespace Report

def times (n : Nat) (c : Char) : String :=
  String.ofList (List.replicate n c)

/-- Draws columns `0` to `n` of a line: `draw` gives the sign of a column and what fills the rest
of it, where a tab makes it wide. -/
def drawColumns (line : Line) (n : Nat) (draw : Nat → Char × Char) : String :=
  String.join ((List.range n).map fun column =>
    let (sign, filler) := draw column
    String.ofList (sign :: List.replicate (line.widthAt column - 1) filler))

/-- The rows for a span within one line: the line, a rule under the span, and the label. -/
def singleRows (line : Line) (span : Span) (label : String) : List String :=
  let start := span.start - line.offset
  let stop := span.stop - line.offset
  let middle := (span.start + span.stop) / 2 - line.offset
  let columns := stop + 2
  let rule := drawColumns line columns fun column =>
    if start ≤ column ∧ column < stop then (if column = middle then '┬' else '─', '─')
    else if column = middle then ('│', ' ')
    else (' ', ' ')
  let pointer := drawColumns line columns fun column =>
    if column < middle then (' ', ' ') else (if column = middle then '╰' else '─', '─')
  [rule, pointer ++ " " ++ label]

/-- The rows under a span over several lines that ends in `line`. -/
def multiRows (line : Line) (label : String) : List String :=
  let columns := line.chars.length + 2
  ["│   " ++ drawColumns line columns (fun _ => (' ', ' ')),
    "╰───" ++ drawColumns line columns (fun _ => ('─', '─')) ++ " " ++ label]

/-- The report of an error at a span of a source text. -/
def lines (path source : String) (d : Diagnosis) (span : Span) : List String :=
  let chars := source.toList
  let first := lineAt chars span.start
  -- the line of the last character that is marked, if there is one
  let last := if span.stop ≤ span.start then first else lineAt chars (span.stop - 1)
  let digits := (toString last.number).length
  let margin := times (digits + 2) ' '
  let row (text : String) := margin ++ "│ " ++ text
  let sourceRow (line : Line) (arrow : String) :=
    let number := toString line.number
    " " ++ times (digits - number.length) ' ' ++ number ++ " │ " ++ arrow ++ line.text
  let rows :=
    if first.number = last.number then
      sourceRow first "" :: (singleRows first span d.label).map row
    else
      [sourceRow first "╭─▶ "] ++
      (if first.number + 1 < last.number then [margin ++ "┆ ┆   "] else []) ++
      [sourceRow last "├─▶ "] ++ (multiRows last d.label).map row
  [margin ++ "╭─[" ++ path ++ ":" ++ toString first.number ++ ":" ++
      toString (span.start - first.offset + 1) ++ "]",
    margin ++ "│"] ++ rows ++ [times (digits + 2) '─' ++ "╯"]

/-- The report of an error as text; without a span it is its message alone. -/
def render (path source : String) (d : Diagnosis) : String :=
  let body :=
    match d.span with
    | some span => lines path source d (span.clamp source.utf8ByteSize)
    | none => []
  String.join ((("Error: " ++ d.message) :: body).map (· ++ "\n"))

end Report

end TwinLisp
