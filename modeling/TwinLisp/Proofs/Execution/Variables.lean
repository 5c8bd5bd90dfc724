import TwinLisp.Proofs.Execution.Steps

/-! The code that gives variables their values, and the scopes that they belong to. -/

namespace TwinLisp.Execution

open TwinLisp.Graph TwinLisp.Graph.Lowering TwinLisp.Graph.Exec TwinLisp.Eval

variable {program : List Expr} {m : Module} {c : Scene program m} {s s' : State} {w w' : World}
  {x y : Activation} {a : Operand} {n : Int64} {name : String} {env : Environment}

/-- Conditional code only adds variables to those of the whole unit. -/
theorem Matches.outlook {floor : Floor} {slots : Slots} {o : Outlook} {u v : UnitState}
    {inFunction : Bool} {ts : List (Table SlotId)} {frames : List Frame} {globals : Frame}
    (h : Matches program floor slots (o.base u.base) ts frames globals)
    (widens : Widens (Reserved program) false inFunction u v) (inside : floor.isCall = inFunction) :
    Matches program floor slots (o.base v.base) ts frames globals := by
  cases o with
  | now =>
    refine h.weaken (fun _ => widens.base nofun) (fun x k known => ?_) fun call => ?_
    · exact (widens.new x k known).imp id And.right
    · exact widens.own (inside ▸ call) nofun
  | later base => exact h

/-- A variable that is known gets a new value. -/
theorem reaches_assign {slot : SlotId} {unconditional : Bool} (opened : s.Open) (tidy : Tidy s.current)
    (coming : Coming m c.code c.outlook unconditional (s.perform (.store slot a)))
    (synced : Synced c s w x) (held : x.values.int? a = some n)
    (known : s.current.lookup name = some slot) (assigned : w.env.assign name (.int n) = .ok env) :
    Reaches c s (s.perform (.store slot a)) w { w with env } x fun y => y.values = x.values := by
  have tidy : Tidy (s.perform (.store slot a)).current := tidy.of_same rfl rfl rfl
  refine reaches_store opened coming.ahead synced.here held ?_
  exact matches_assign synced.frames (coming.allows.resolve known) (coming.allows.apart tidy) assigned

/-- A variable that is unknown becomes one of the whole program. -/
theorem reaches_introduce {unconditional : Bool} (opened : s.Open) (tidy : Tidy s.current)
    (coming : Coming m c.code c.outlook unconditional (s.bindNew UnitState.bindOuter name false a))
    (main : c.floor.isCall = false) (synced : Synced c s w x) (held : x.values.int? a = some n)
    (unknown : s.current.lookup name = none) (free : ¬Reserved program name)
    (assigned : w.env.assign name (.int n) = .ok env) :
    Reaches c s (s.bindNew UnitState.bindOuter name false a) w { w with env } x
      fun y => y.values = x.values := by
  -- the state between the slot and the store
  let t : State := { s with current := { s.current with
    builder := (s.builder.alloca name false).2
    base := s.current.base.insert name s.nextSlot } }
  have inner := (Option.or_eq_none_iff.mp unknown).1
  have known : t.current.lookup name = some s.nextSlot := by
    change (s.current.locals.findSome? _).or ((s.current.base.insert name s.nextSlot).get? name) = _
    rw [inner, Table.get?_insert, if_pos rfl]
    rfl
  have frames := synced.frames.outlook (widens_introduce unknown free a) main
  have tidy := tidy.bindOuter name false a
  have opened : t.Open := ⟨opened.lt, opened.going⟩
  refine reaches_store (t := t) opened coming.ahead (synced.here.of_same rfl rfl) held ?_
  exact matches_assign frames (coming.allows.resolve known) (coming.allows.apart tidy) assigned

/-- A new variable of the innermost scope. -/
theorem reaches_bindInner {frozen : Bool} (opened : s.Open) (tidy : Tidy s.current)
    (coming : Coming m c.code c.outlook true (s.bindNew UnitState.bindInner name frozen a))
    (synced : Synced c s w x) (held : x.values.int? a = some n) (free : ¬Reserved program name)
    (mutability : Mutability) :
    Reaches c s (s.bindNew UnitState.bindInner name frozen a) w
      { w with env := w.env.define name (.int n) mutability } x fun y => y.values = x.values := by
  obtain ⟨ahead, allows⟩ := coming
  obtain ⟨here, frames⟩ := synced
  obtain ⟨module, signatures, ⟨unit, builder, scopes, base⟩, inProgress⟩ := s
  cases scopes with
  | nil =>
    -- the scope of the whole unit changes, so that it must be the one that is seen
    have now : c.outlook = .now := by
      cases seen : c.outlook with
      | now => rfl
      | later base => exact absurd rfl ((allows base seen).2 rfl)
    let t : State := ⟨module, signatures, ⟨unit, (builder.alloca name frozen).2, [],
      base.insert name builder.slots.size⟩, inProgress⟩
    have opened : t.Open := ⟨opened.lt, opened.going⟩
    have here : c.code.At t.builder x := here.of_same rfl rfl
    refine reaches_store (t := t) opened ahead here held ?_
    rw [now] at frames ⊢
    have unused := tidy.fresh (t := base) (List.mem_append_right _ List.mem_cons_self)
    exact matches_define_base frames unused free n mutability
  -- a local scope gets the variable, and the frame that stands for it
  | cons scope scopes =>
    let t : State := ⟨module, signatures, ⟨unit, (builder.alloca name frozen).2,
      scope.insert name builder.slots.size :: scopes, base⟩, inProgress⟩
    have opened : t.Open := ⟨opened.lt, opened.going⟩
    have here : c.code.At t.builder x := here.of_same rfl rfl
    refine reaches_store (t := t) opened ahead here held ?_
    have new : builder.slots.size < (builder.slots.push ⟨name, frozen⟩).size := by
      rw [Array.size_push]
      exact Nat.lt_succ_self _
    exact matches_define frames (allows.unused tidy rfl new) name n mutability

/-- Names with what they are to be bound to, on both sides. -/
def Paired (values : Exec.Values) (pairs : List (String × Operand))
    (bindings : List (String × TwinLisp.Value)) : Prop :=
  List.Forall₂ (fun p q => p.1 = q.1 ∧ ∃ n, q.2 = .int n ∧ values.int? p.2 = some n) pairs bindings

/-- Variables of the innermost scope, one after the other. -/
theorem reaches_bindAll {values : Exec.Values} {pairs : List (String × Operand)}
    {bindings : List (String × TwinLisp.Value)} (paired : Paired values pairs bindings)
    (agree : x.values = values) (opened : s.Open) (tidy : Tidy s.current) (registered : Registered s)
    (coming : Coming m c.code c.outlook true (s.bindAll pairs))
    (free : ∀ pair ∈ pairs, ¬Reserved program pair.1) (synced : Synced c s w x) :
    Reaches c s (s.bindAll pairs) w { w with env := w.env.defineAll bindings } x
      fun y => y.values = values := by
  unfold Paired at paired
  induction paired generalizing s w x with
  | nil => exact .still synced agree
  | @cons p q pairs bindings first rest ih =>
    obtain ⟨name, value⟩ := q
    obtain ⟨rfl, n, rfl, held⟩ := first
    obtain ⟨here, others⟩ := List.forall_mem_cons.mp free
    let s₁ := s.bindNew UnitState.bindInner p.1 false p.2
    have region := region_bindNew opened (fun u slot => bindInner_keeps u p.1 slot) false p.2
    have registered : Registered s₁ := ((Trace.bindAll [p]).registered registered).1
    have coming : Coming m c.code c.outlook true (s₁.bindAll pairs) := coming
    -- the scope that is still to be filled may already be relied upon
    have before := coming.back_bindAll region.isOpen registered others
    have bound := reaches_bindInner opened tidy before synced (agree ▸ held) here .mutable
    refine bound.trans (region.grown opened).types_le fun y synced _ same => ?_
    exact ih (same.trans agree) region.isOpen (tidy.bindInner p.1 false p.2) registered coming others synced

/-- The scope of a `let` form is entered. -/
theorem reaches_enterScope {values : Exec.Values} {pairs : List (String × Operand)}
    {bindings : List (String × TwinLisp.Value)} (paired : Paired values pairs bindings)
    (agree : x.values = values) (opened : s.Open) (tidy : Tidy s.current) (registered : Registered s)
    (coming : Coming m c.code c.outlook true (s.enterScope pairs))
    (free : ∀ pair ∈ pairs, ¬Reserved program pair.1) (synced : Synced c s w x) :
    Reaches c s (s.enterScope pairs) w { w with env := w.env.pushScope.defineAll bindings } x
      fun y => y.values = values := by
  let t : State := { s with current := s.current.pushScope }
  have tidy : Tidy t.current := ⟨tidy.apart.cons_nil, List.forall_mem_cons.mpr ⟨nofun, tidy.below⟩⟩
  have pushed : Synced c t { w with env := w.env.pushScope } x := ⟨synced.here, matches_push synced.frames⟩
  obtain ⟨ls, y, ⟨runs, synced, keeps, output⟩, same⟩ := reaches_bindAll (s := t) paired agree opened tidy
    (registered.of_module rfl rfl rfl) coming free pushed
  exact ⟨ls, y, ⟨runs, synced, keeps, output⟩, same⟩

/-- The innermost scope is left. -/
theorem Synced.leaveScope {w₁ : World} (before : Synced c s w x) (inner : Synced c s' w₁ y)
    (tail : s'.current.locals.tail = s.current.locals)
    (length : s'.current.locals.length = s.current.locals.length + 1) :
    Synced c s'.leaveScope { w₁ with env := w₁.env.truncate w.env.depth } y where
  here := inner.here
  frames := by
    -- the evaluator drops one frame where lowering drops one scope
    have left : w₁.env.truncate w.env.depth = { w₁.env with locals := w₁.env.locals.drop 1 } := by
      refine Environment.truncate_depth ?_
      rw [inner.frames.length_eq, before.frames.length_eq, length, Nat.add_right_comm]
    change Matches program c.floor y.slots (c.outlook.base s'.current.base) s'.current.locals.tail
      (w₁.env.truncate _).locals (w₁.env.truncate _).globals
    rw [left, List.drop_one, tail]
    exact inner.frames.pop length tail

end TwinLisp.Execution
