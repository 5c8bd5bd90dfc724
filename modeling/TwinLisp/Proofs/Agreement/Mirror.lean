import TwinLisp.Eval.World
import TwinLisp.Proofs.Environment
import TwinLisp.Proofs.Lowering.Transition

/-!
The scopes that lowering keeps while it walks over straight-line code, and the frames that evaluation
keeps: they have the same variables, and the same ones among them are constants.
-/

namespace TwinLisp.Agreement

open TwinLisp.Graph TwinLisp.Graph.Lowering TwinLisp.Eval

/-- Whether one of the slots holds a constant. -/
def frozenIn (slots : Array Slot) (slot : SlotId) : Bool :=
  (slots[slot]?).any (·.frozen)

/-- A slot and a binding stand for one variable, which is an integer. -/
structure Twin (slots : Array Slot) (slot : SlotId) (b : Binding TwinLisp.Value) : Prop where
  lt : slot < slots.size
  int : ∃ n, b.value = .int n
  frozen : frozenIn slots slot = (b.mutability == .frozen)

/-- A scope and a frame have the same variables; `nil` is none. -/
def Twins (slots : Array Slot) (scope : Table SlotId) (frame : Frame) : Prop :=
  ∀ name, name ≠ "nil" → Option.Rel (Twin slots) (scope.get? name) (frame.get? name)

/-- Scope by scope, lowering knows the variables that there are; `depth` counts the local scopes. -/
structure Mirrors (depth : Nat) (s : State) (w : World) : Prop where
  locals : List.Forall₂ (Twins s.current.builder.slots) s.current.locals w.env.locals
  base : Twins s.current.builder.slots s.current.base w.env.globals
  depth : w.env.locals.length = depth

variable {slots : Array Slot} {slot : SlotId} {scope : Table SlotId} {frame : Frame}
  {b : Binding TwinLisp.Value} {name : String}

theorem frozenIn_push {new : Slot} (lt : slot < slots.size) :
    frozenIn (slots.push new) slot = frozenIn slots slot := by
  unfold frozenIn
  rw [Array.getElem?_push_lt lt, Array.getElem?_eq_getElem lt]

theorem Twin.push (h : Twin slots slot b) (new : Slot) : Twin (slots.push new) slot b where
  lt := by
    rw [Array.size_push]
    exact Nat.lt_succ_of_lt h.lt
  int := h.int
  frozen := (frozenIn_push h.lt).trans h.frozen

/-- A slot and the binding that it is made for. -/
theorem twin_push (slots : Array Slot) (name : String) (frozen : Bool) (n : Int64) :
    Twin (slots.push ⟨name, frozen⟩) slots.size ⟨.int n, if frozen then .frozen else .mutable⟩ where
  lt := by
    rw [Array.size_push]
    exact Nat.lt_succ_self _
  int := ⟨n, rfl⟩
  frozen := by
    unfold frozenIn
    rw [Array.getElem?_push_size]
    cases frozen <;> rfl

/-- What both sides find under a name is one variable. -/
theorem Twins.cases (h : Twins slots scope frame) (named : name ≠ "nil") :
    (scope.get? name = none ∧ frame.get? name = none) ∨
      ∃ slot b, scope.get? name = some slot ∧ frame.get? name = some b ∧ Twin slots slot b :=
  rel_cases (h name named)

theorem Twins.push (h : Twins slots scope frame) (new : Slot) :
    Twins (slots.push new) scope frame := by
  intro name named
  rcases h.cases named with ⟨known, bound⟩ | ⟨slot, b, known, bound, twin⟩
  · rw [known, bound]
    exact .none
  · rw [known, bound]
    exact .some (twin.push new)

/-- A variable can be made known on both sides at once. -/
theorem Twins.insert (h : Twins slots scope frame) (twin : Twin slots slot b) (name : String) :
    Twins slots (scope.insert name slot) (frame.insert name b) := by
  intro other named
  rw [Table.get?_insert, Table.get?_insert]
  by_cases same : name = other
  · rw [if_pos same, if_pos same]
    exact .some twin
  · rw [if_neg same, if_neg same]
    exact h other named

/-- A variable gets a new value, in its frame only. -/
theorem Twins.update (h : Twins slots scope frame) (held : scope.get? name = some slot)
    (twin : Twin slots slot b) : Twins slots scope (frame.insert name b) := by
  intro other named
  rw [Table.get?_insert]
  by_cases same : name = other
  · rw [if_pos same, ← same, held]
    exact .some twin
  · rw [if_neg same]
    exact h other named

theorem twins_nil (slots : Array Slot) : Twins slots [] [] :=
  fun _ _ => .none

/-- A look-up through the scopes and one through the frames come to twins, or both to nothing. -/
theorem findSome?_twins {scopes : List (Table SlotId)} {frames : List Frame}
    (h : List.Forall₂ (Twins slots) scopes frames) (named : name ≠ "nil") :
    (scopes.findSome? (·.get? name) = none ∧ frames.findSome? (·.get? name) = none) ∨
      ∃ slot b, scopes.findSome? (·.get? name) = some slot ∧
        frames.findSome? (·.get? name) = some b ∧ Twin slots slot b := by
  induction h with
  | nil => exact .inl ⟨rfl, rfl⟩
  | @cons scope frame scopes frames first _ ih =>
    rw [List.findSome?_cons, List.findSome?_cons]
    rcases first.cases named with ⟨known, bound⟩ | ⟨slot, b, known, bound, twin⟩
    · rw [known, bound]
      exact ih
    · rw [known, bound]
      exact .inr ⟨slot, b, rfl, rfl, twin⟩

/-- The innermost binding of a variable gets a new value. -/
theorem replaceNearest_twins {scopes : List (Table SlotId)} {frames : List Frame}
    (h : List.Forall₂ (Twins slots) scopes frames) (named : name ≠ "nil") (n : Int64) :
    (scopes.findSome? (·.get? name) = none ∧ Environment.replaceNearest name (.int n) frames = none) ∨
      ∃ slot frames', scopes.findSome? (·.get? name) = some slot ∧
        Environment.replaceNearest name (.int n) frames = some frames' ∧
        List.Forall₂ (Twins slots) scopes frames' := by
  induction h with
  | nil => exact .inl ⟨rfl, rfl⟩
  | @cons scope frame scopes frames first rest ih =>
    rw [List.findSome?_cons]
    unfold Environment.replaceNearest
    rcases first.cases named with ⟨known, bound⟩ | ⟨slot, b, known, bound, twin⟩
    · rw [known, bound]
      -- neither side has it here, so both look further out
      rcases ih with ⟨known, unbound⟩ | ⟨slot, frames', known, replaced, twins⟩
      · exact .inl ⟨known, by rw [unbound]; rfl⟩
      · exact .inr ⟨slot, frame :: frames', known, by rw [replaced]; rfl, .cons first twins⟩
    · rw [known, bound]
      -- this frame changes: the integer is another one, but it stays a variable of that slot
      refine .inr ⟨slot, _, rfl, rfl, .cons (first.update known ?_) rest⟩
      exact ⟨twin.lt, ⟨n, rfl⟩, twin.frozen⟩

variable {s s' : State} {w : World} {d : Nat}

theorem forall₂_tail {α β : Type} {R : α → β → Prop} {as : List α} {bs : List β}
    (h : List.Forall₂ R as bs) : List.Forall₂ R as.tail bs.tail := by
  cases h with
  | nil => exact .nil
  | cons _ rest => exact rest

namespace Mirrors

/-- Only the scopes, the slots and the frames matter. -/
theorem of_same {w' : World} (h : Mirrors d s w) (locals : s'.current.locals = s.current.locals)
    (base : s'.current.base = s.current.base)
    (slots : s'.current.builder.slots = s.current.builder.slots) (env : w'.env = w.env) :
    Mirrors d s' w' := by
  refine ⟨?_, ?_, ?_⟩
  · rw [locals, slots, env]
    exact h.locals
  · rw [base, slots, env]
    exact h.base
  · rw [env]
    exact h.depth

variable (h : Mirrors d s w)

include h

theorem emit (operation : Operation) : Mirrors d (s.emit operation) w :=
  h.of_same rfl rfl rfl rfl

theorem perform (effect : Effect) : Mirrors d (s.perform effect) w :=
  h.of_same rfl rfl rfl rfl

theorem intern (text : String) : Mirrors d (s.intern text).2 w :=
  h.of_same rfl rfl rfl rfl

theorem print (line : String) : Mirrors d s { w with output := w.output.println line } :=
  h.of_same rfl rfl rfl rfl

/-- Both sides know the variable, or neither does. -/
theorem lookup_cases (named : name ≠ "nil") :
    (s.current.lookup name = none ∧ w.env.binding? name = none) ∨
      ∃ slot b, s.current.lookup name = some slot ∧ w.env.binding? name = some b ∧
        Twin s.current.builder.slots slot b := by
  unfold UnitState.lookup Environment.binding?
  rcases findSome?_twins h.locals named with ⟨known, bound⟩ | ⟨slot, b, known, bound, twin⟩
  · rw [known, bound]
    exact h.base.cases named
  · rw [known, bound]
    exact .inr ⟨slot, b, rfl, rfl, twin⟩

/-- Both sides agree on whether the name is that of a constant. -/
theorem isFrozen (named : name ≠ "nil") :
    (s.current.lookup name).any s.current.isFrozen = w.env.isFrozen name := by
  unfold Environment.isFrozen
  rcases h.lookup_cases named with ⟨known, bound⟩ | ⟨slot, b, known, bound, twin⟩
  · rw [known, bound]
    rfl
  · rw [known, bound]
    exact twin.frozen

/-- A known variable that is no constant gets a new value. -/
theorem assign (named : name ≠ "nil") (known : s.current.lookup name = some slot)
    (mutable : s.current.isFrozen slot = false) (n : Int64) :
    ∃ env, w.env.assign name (.int n) = .ok env ∧ Mirrors d s { w with env } := by
  have free := h.isFrozen named
  rw [known, Option.any_some, mutable] at free
  rcases replaceNearest_twins h.locals named n with ⟨unknown, unbound⟩ | ⟨-, frames, -, replaced, twins⟩
  · refine ⟨_, Environment.assign_of_none free.symm unbound, h.locals, ?_, h.depth⟩
    -- the variable is a global one
    unfold UnitState.lookup at known
    rw [unknown, Option.none_or] at known
    rcases h.base.cases named with ⟨unknown, -⟩ | ⟨slot', b, known', bound, twin⟩
    · rw [unknown] at known
      cases known
    · refine h.base.update known' ⟨twin.lt, ⟨n, rfl⟩, ?_⟩
      rw [known'] at known
      cases known
      exact mutable
  · -- the variable is that of a scope
    refine ⟨_, Environment.assign_of_some free.symm replaced, twins, h.base, ?_⟩
    exact twins.length_eq.symm.trans (h.locals.length_eq.trans h.depth)

/-- A variable of the whole unit is a global one. -/
theorem bindOuter (name : String) (frozen : Bool) (a : Operand) (n : Int64) :
    Mirrors d (s.bindNew UnitState.bindOuter name frozen a) { w with
      env := { w.env with
        globals := w.env.globals.insert name ⟨.int n, if frozen then .frozen else .mutable⟩ } } where
  locals := h.locals.imp fun _ _ twins => twins.push _
  base := (h.base.push _).insert (twin_push _ name frozen n) name
  depth := h.depth

/-- An unknown variable becomes a global one. -/
theorem introduce (named : name ≠ "nil") (unknown : s.current.lookup name = none) (a : Operand)
    (n : Int64) : ∃ env, w.env.assign name (.int n) = .ok env ∧
      Mirrors d (s.bindNew UnitState.bindOuter name false a) { w with env } := by
  have free := h.isFrozen named
  rw [unknown, Option.any_none] at free
  rcases replaceNearest_twins h.locals named n with ⟨-, unbound⟩ | ⟨slot, -, known, -⟩
  · exact ⟨_, Environment.assign_of_none free.symm unbound, h.bindOuter name false a n⟩
  · -- a local frame that binds the name would make it known
    unfold UnitState.lookup at unknown
    rw [known] at unknown
    cases unknown

/-- A new variable belongs to the innermost scope on both sides. -/
theorem bindInner (name : String) (frozen : Bool) (a : Operand) (n : Int64) :
    Mirrors d (s.bindNew UnitState.bindInner name frozen a)
      { w with env := w.env.define name (.int n) (if frozen then .frozen else .mutable) } := by
  obtain ⟨module, signatures, ⟨unit, builder, scopes, base⟩, inProgress⟩ := s
  obtain ⟨⟨frames, globals⟩, output, created⟩ := w
  obtain ⟨locals, outer, depth⟩ := h
  cases locals with
  -- without a scope the new variable is one of the whole unit
  | nil => exact ⟨.nil, (outer.push _).insert (twin_push _ name frozen n) name, depth⟩
  | cons first rest =>
    refine ⟨.cons ?_ (rest.imp fun _ _ twins => twins.push _), outer.push _, depth⟩
    exact (first.push _).insert (twin_push _ name frozen n) name

/-- The variables of a new scope. -/
theorem bindAll {pairs : List (String × Operand)} {values : List (String × TwinLisp.Value)}
    (same : List.Forall₂ (fun p q => p.1 = q.1 ∧ ∃ n, q.2 = TwinLisp.Value.int n) pairs values) :
    Mirrors d (s.bindAll pairs) { w with env := w.env.defineAll values } := by
  induction same generalizing s w with
  | nil => exact h
  | @cons p q _ _ first _ ih =>
    obtain ⟨name, value⟩ := q
    obtain ⟨rfl, n, rfl⟩ := first
    exact ih (h.bindInner p.1 false p.2 n)

/-- A scope is entered on both sides. -/
theorem enterScope {pairs : List (String × Operand)} {values : List (String × TwinLisp.Value)}
    (same : List.Forall₂ (fun p q => p.1 = q.1 ∧ ∃ n, q.2 = TwinLisp.Value.int n) pairs values) :
    Mirrors (d + 1) (s.enterScope pairs) { w with env := w.env.pushScope.defineAll values } := by
  have pushed : Mirrors (d + 1) { s with current := s.current.pushScope }
      { w with env := w.env.pushScope } :=
    ⟨.cons (twins_nil _) h.locals, h.base, congrArg (· + 1) h.depth⟩
  exact pushed.bindAll same

end Mirrors

/-- The innermost scope is left on both sides. -/
theorem Mirrors.leaveScope {w' : World} (before : w.env.locals.length = d)
    (h : Mirrors (d + 1) s w') :
    Mirrors d s.leaveScope { w' with env := w'.env.truncate w.env.depth } := by
  rw [Environment.truncate_depth (h.depth.trans (congrArg (· + 1) before.symm)), List.drop_one]
  refine ⟨forall₂_tail h.locals, h.base, ?_⟩
  rw [List.length_tail, h.depth]
  rfl

end TwinLisp.Agreement
