/-! Printed lines, kept or dropped. -/

namespace TwinLisp

/-- Where printed lines go: `keeps` says whether they are collected. -/
structure Output where
  keeps : Bool
  lines : Array String

namespace Output

def buffer : Output := ⟨true, #[]⟩

def silent : Output := ⟨false, #[]⟩

def println (o : Output) (line : String) : Output :=
  if o.keeps then { o with lines := o.lines.push line } else o

def clear (o : Output) : Output :=
  { o with lines := #[] }

/-- What was printed, each line ended by a line feed. -/
def text (o : Output) : String :=
  o.lines.foldl (fun text line => text ++ line ++ "\n") ""

end Output

end TwinLisp
