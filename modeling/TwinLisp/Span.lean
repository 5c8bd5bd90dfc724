/-! Stretches of source text, given by byte offsets. -/

namespace TwinLisp

/-- The bytes of a source text from `start` up to, but not including, `stop`. -/
structure Span where
  start : Nat
  stop : Nat
deriving DecidableEq

namespace Span

def maxOffset : Nat := 4294967295

/-- Offsets beyond `maxOffset` are recorded as `maxOffset`. -/
def ofOffsets (start stop : Nat) : Span :=
  ⟨min start maxOffset, min stop maxOffset⟩

/-- The smallest span that covers both. -/
def merge (a b : Span) : Span :=
  ⟨min a.start b.start, max a.stop b.stop⟩

/-- The span written as `start..stop`. -/
def text (s : Span) : String :=
  toString s.start ++ ".." ++ toString s.stop

end Span

end TwinLisp
