import TwinLisp.Eval.World

/-!
Values, environments and worlds without the stamps of functions. How many functions have been made so
far shows in the stamps only.
-/

namespace TwinLisp

namespace Table

variable {α β : Type}

/-- The same names, with what they stand for replaced. -/
def mapValues (f : α → β) (t : Table α) : Table β :=
  t.map fun entry => (entry.1, f entry.2)

end Table

namespace Value

mutual

/-- The value without stamps: a function loses its own, and so do the functions it has captured. -/
def unstamped : Value → Value
  | function ⟨_, name, params, body, captures⟩ =>
    function ⟨0, name, params, body, unstampedAll captures⟩
  | v => v

def unstampedAll : List (String × Binding Value) → List (String × Binding Value)
  | [] => []
  | (name, ⟨value, mutability⟩) :: rest => (name, ⟨unstamped value, mutability⟩) :: unstampedAll rest

end

end Value

def Binding.unstamped (b : Binding Value) : Binding Value :=
  ⟨b.value.unstamped, b.mutability⟩

def Frame.unstamped (frame : Frame) : Frame :=
  Table.mapValues Binding.unstamped frame

def Environment.unstamped (env : Environment) : Environment :=
  ⟨env.locals.map Frame.unstamped, Frame.unstamped env.globals⟩

namespace Eval

/-- Two worlds that differ in the stamps of functions only. -/
structure World.Twin (w w' : World) : Prop where
  env : w'.env.unstamped = w.env.unstamped
  output : w'.output = w.output

end Eval

end TwinLisp
