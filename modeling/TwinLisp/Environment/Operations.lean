import Mathlib.Data.List.Forall2
import TwinLisp.Environment

/-!
How environments come about: one operation after the other, from an environment that binds a single
name. There is no order among the bindings of a frame.
-/

namespace TwinLisp.Environment

inductive Operation
  | pushScope
  | pushCaptures (captures : Frame) (distinct : captures.Distinct)
  | popScope
  | truncate (depth : Nat)
  | define (name : String) (value : Value) (mutability : Mutability)
  | assign (name : String) (value : Value)
  | defineConst (name : String) (value : Value)
  | defineFunction (name : String) (value : Value)

/-- The environment behind an operation; one that is refused leaves it as it was. -/
def perform (env : Environment) : Operation → Environment
  | .pushScope => env.pushScope
  | .pushCaptures captures _ => env.pushFrame captures
  | .popScope => env.popScope
  | .truncate depth => env.truncate depth
  | .define name value mutability => env.define name value mutability
  | .assign name value => (env.assign name value).toOption.getD env
  | .defineConst name value => (env.defineConst name value).toOption.getD env
  | .defineFunction name value => (env.defineFunction name value).toOption.getD env

def performAll (env : Environment) (operations : List Operation) : Environment :=
  operations.foldl perform env

/-- The frame holds what the frames of the environment hold, flattened from the outermost one on;
the pairs of each of them may be taken, and those of the result may stand, in any order. -/
def IsSnapshot (env : Environment) (captures : Frame) : Prop :=
  ∃ orders : List Frame, List.Forall₂ List.Perm env.frames orders ∧
    captures.Perm (orders.reverse.foldl Table.insertAll [])

/-- The binding is the one of the innermost frame that binds the name. -/
def Sees (env : Environment) (name : String) (b : Binding Value) : Prop :=
  ∃ inner frame outer, env.frames = inner ++ frame :: outer ∧
    (∀ nearer ∈ inner, nearer.get? name = none) ∧ frame.get? name = some b

/-- The frame holds exactly what is visible in the environment, and it hides nothing in it. -/
structure Captured (env : Environment) (captures : Frame) : Prop where
  /-- The names are those that some frame binds. -/
  names : ∀ name, (captures.get? name).isSome ↔ ∃ frame ∈ env.frames, (frame.get? name).isSome
  /-- Values and mutability are those of the innermost binding. -/
  bindings : ∀ name b, captures.get? name = some b ↔ env.Sees name b
  lookup : ∀ name, (env.pushFrame captures).lookup name = env.lookup name
  assign : ∀ name value refusal, (env.pushFrame captures).assign name value = .error refusal ↔
    env.assign name value = .error refusal
  defineConst : ∀ name value refusal,
    (env.pushFrame captures).defineConst name value = .error refusal ↔
      env.defineConst name value = .error refusal
  defineFunction : ∀ name value refusal,
    (env.pushFrame captures).defineFunction name value = .error refusal ↔
      env.defineFunction name value = .error refusal

end TwinLisp.Environment
