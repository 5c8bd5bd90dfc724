import TwinLisp.Value

/-! Environments: frames of bindings, from the innermost scope to the global one. -/

namespace TwinLisp

/-- The bindings of one scope. -/
abbrev Frame := Table (Binding Value)

/-- Why a binding operation is refused. -/
inductive Refusal
  | frozen
  | alreadyConst
deriving DecidableEq

/-- The frames of local scopes, innermost first, and the frame below them all. -/
structure Environment where
  locals : List Frame
  globals : Frame

namespace Environment

/-- An environment whose only binding is the empty list, under the name `nil`. -/
def initial (nil : String) : Environment :=
  ⟨[], [(nil, ⟨.nil, .mutable⟩)]⟩

/-- Every frame, innermost first. -/
def frames (env : Environment) : List Frame :=
  env.locals ++ [env.globals]

/-- How many frames there are, the global one included. -/
def depth (env : Environment) : Nat :=
  env.locals.length + 1

def pushFrame (env : Environment) (frame : Frame) : Environment :=
  { env with locals := frame :: env.locals }

def pushScope (env : Environment) : Environment :=
  env.pushFrame []

/-- Leaves the innermost scope; the global one is never left. -/
def popScope (env : Environment) : Environment :=
  { env with locals := env.locals.tail }

/-- Leaves scopes until no more than `depth` frames are there; the global one stays. -/
def truncate (env : Environment) (depth : Nat) : Environment :=
  -- the global frame is one of the `depth` frames that stay
  { env with locals := env.locals.drop (env.locals.length - (depth - 1)) }

def binding? (env : Environment) (name : String) : Option (Binding Value) :=
  match env.locals.findSome? (·.get? name) with
  | some b => some b
  | none => env.globals.get? name

theorem binding?_eq_findSome? (env : Environment) (name : String) :
    env.binding? name = env.frames.findSome? (·.get? name) := by
  unfold binding? frames
  rw [List.findSome?_append]
  cases env.locals.findSome? (·.get? name) <;> simp

def lookup (env : Environment) (name : String) : Option Value :=
  (env.binding? name).map (·.value)

def isFrozen (env : Environment) (name : String) : Bool :=
  (env.binding? name).any (·.mutability == .frozen)

def define (env : Environment) (name : String) (value : Value) (mutability : Mutability) :
    Environment :=
  match env.locals with
  | [] => { env with globals := env.globals.insert name ⟨value, mutability⟩ }
  | frame :: outer => { env with locals := frame.insert name ⟨value, mutability⟩ :: outer }

def defineAll (env : Environment) (pairs : List (String × Value)) : Environment :=
  pairs.foldl (fun env (name, value) => env.define name value .mutable) env

/-- Gives the name a new value in the innermost of the frames that binds it. -/
def replaceNearest (name : String) (value : Value) : List Frame → Option (List Frame)
  | [] => none
  | frame :: outer =>
    match frame.get? name with
    | some b => some (frame.insert name ⟨value, b.mutability⟩ :: outer)
    | none => (replaceNearest name value outer).map (frame :: ·)

/-- Gives the visible binding of a name a new value; a name without one becomes global. -/
def assign (env : Environment) (name : String) (value : Value) : Except Refusal Environment :=
  if env.isFrozen name then .error .frozen
  else
    match replaceNearest name value env.locals with
    | some locals => .ok { env with locals }
    -- no local frame binds it: it is global, or becomes so
    | none => .ok { env with globals := env.globals.insert name ⟨value, .mutable⟩ }

/-- Puts a function in place of a mutable function of that name. -/
def refreshFunction (name : String) (value : Value) (frame : Frame) : Frame :=
  match frame.get? name with
  | some ⟨.function _, .mutable⟩ => frame.insert name ⟨value, .mutable⟩
  | _ => frame

/-- Binds a function globally and puts it in place of the functions of that name in every
other frame, so that callers in progress see it. -/
def defineFunction (env : Environment) (name : String) (value : Value) :
    Except Refusal Environment :=
  if env.isFrozen name then .error .frozen
  else .ok ⟨env.locals.map (refreshFunction name value),
    env.globals.insert name ⟨value, .mutable⟩⟩

/-- Binds and freezes a name in the innermost scope; an outer binding of the name is hidden,
not frozen. -/
def defineConst (env : Environment) (name : String) (value : Value) :
    Except Refusal Environment :=
  if env.isFrozen name then .error .alreadyConst
  else .ok (env.define name value .frozen)

/-- Every visible binding in one frame. -/
def snapshot (env : Environment) : Frame :=
  env.frames.reverse.foldl Table.insertAll []

end Environment

end TwinLisp
