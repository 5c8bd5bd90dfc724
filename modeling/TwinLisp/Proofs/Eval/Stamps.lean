import TwinLisp.Eval.Stamps
import TwinLisp.Proofs.Eval.Pairing

/-!
No step of evaluation depends on the stamps of functions: in worlds that differ in stamps only, every
expression ends in the same way, and the worlds still differ in stamps only.
-/

namespace TwinLisp

namespace Table

variable {α β : Type} (f : α → β)

/-- Look-ups do not depend on what names stand for. -/
theorem get?_mapValues (t : Table α) (name : String) :
    (t.mapValues f).get? name = (t.get? name).map f := by
  induction t with
  | nil => rfl
  | cons entry rest ih =>
    simp only [mapValues, List.map_cons, get?] at ih ⊢
    split
    · rfl
    · exact ih

theorem insert_mapValues (t : Table α) (name : String) (value : α) :
    (t.mapValues f).insert name (f value) = (t.insert name value).mapValues f := by
  induction t with
  | nil => rfl
  | cons entry rest ih =>
    simp only [mapValues, List.map_cons, insert] at ih ⊢
    split
    · rfl
    · simp only [List.map_cons, ih]

theorem insertAll_mapValues (t : Table α) (pairs : List (String × α)) :
    (t.mapValues f).insertAll (mapValues f pairs) = (t.insertAll pairs).mapValues f := by
  induction pairs generalizing t with
  | nil => rfl
  | cons pair pairs ih =>
    change ((t.mapValues f).insert pair.1 (f pair.2)).insertAll (mapValues f pairs) = _
    rw [insert_mapValues, ih]
    rfl

end Table

/-! What is looked up without stamps. -/

theorem Value.unstampedAll_eq (captures : List (String × Binding Value)) :
    unstampedAll captures = Frame.unstamped captures := by
  induction captures with
  | nil => rfl
  | cons entry rest ih =>
    rw [unstampedAll, ih]
    rfl

theorem Value.unstamped_function (f : Closure Value) :
    (function f).unstamped = function ⟨0, f.name, f.params, f.body, Frame.unstamped f.captures⟩ := by
  rw [unstamped, unstampedAll_eq]

/-- Without its stamps a value looks the same. -/
theorem Value.looksLike_of_unstamped {v v' : Value} (same : v'.unstamped = v.unstamped) :
    v.LooksLike v' := by
  cases v with
  | function f =>
    cases v' with
    -- functions are told apart by their stamps, and look alike otherwise
    | function g =>
      rw [unstamped_function, unstamped_function] at same
      injection same with same
      exact .function (congrArg (·.name) same) (congrArg (·.params) same) (congrArg (·.body) same)
    | _ => cases (unstamped_function f).symm.trans same.symm
  | _ =>
    cases v' with
    | function g => cases (unstamped_function g).symm.trans same
    | _ => cases same <;> exact .data rfl

namespace Frame

variable (frame : Frame) (name : String)

theorem get?_unstamped :
    Table.get? frame.unstamped name = (Table.get? frame name).map Binding.unstamped :=
  Table.get?_mapValues Binding.unstamped frame name

theorem insert_unstamped (value : Value) (mutability : Mutability) :
    Table.insert frame.unstamped name ⟨value.unstamped, mutability⟩
      = Frame.unstamped (Table.insert frame name ⟨value, mutability⟩) :=
  Table.insert_mapValues Binding.unstamped frame name ⟨value, mutability⟩

end Frame

namespace Environment

variable (env : Environment) (name : String) (value : Value)

theorem frames_unstamped : env.unstamped.frames = env.frames.map Frame.unstamped := by
  simp only [frames, unstamped, List.map_append, List.map_cons, List.map_nil]

theorem binding?_unstamped :
    env.unstamped.binding? name = (env.binding? name).map Binding.unstamped := by
  have inner (frames : List Frame) : (frames.map Frame.unstamped).findSome? (·.get? name) =
      (frames.findSome? (·.get? name)).map Binding.unstamped := by
    induction frames with
    | nil => rfl
    | cons frame frames ih =>
      rw [List.map_cons, List.findSome?_cons, List.findSome?_cons, Frame.get?_unstamped]
      cases Table.get? frame name with
      | none => exact ih
      | some b => rfl
  rw [binding?_eq_findSome?, binding?_eq_findSome?, frames_unstamped, inner]

theorem lookup_unstamped : env.unstamped.lookup name = (env.lookup name).map Value.unstamped := by
  unfold lookup
  rw [binding?_unstamped, Option.map_map, Option.map_map]
  rfl

theorem isFrozen_unstamped : env.unstamped.isFrozen name = env.isFrozen name := by
  unfold isFrozen
  rw [binding?_unstamped, Option.any_map]
  rfl

theorem snapshot_unstamped : env.unstamped.snapshot = Frame.unstamped env.snapshot := by
  -- stamps play no part in inserting
  have inner (frames : List Frame) (t : Frame) :
      (frames.map Frame.unstamped).foldl Table.insertAll t.unstamped =
        Frame.unstamped (frames.foldl Table.insertAll t) := by
    induction frames generalizing t with
    | nil => rfl
    | cons frame frames ih =>
      have inserted : Table.insertAll t.unstamped frame.unstamped =
          Frame.unstamped (Table.insertAll t frame) :=
        Table.insertAll_mapValues Binding.unstamped t frame
      rw [List.map_cons, List.foldl_cons, List.foldl_cons, inserted, ih]
  unfold snapshot
  rw [frames_unstamped, ← List.map_reverse]
  exact inner env.frames.reverse []

theorem depth_unstamped : env.unstamped.depth = env.depth := by
  simp only [depth, unstamped, List.length_map]

theorem truncate_unstamped (depth : Nat) :
    env.unstamped.truncate depth = (env.truncate depth).unstamped := by
  simp only [truncate, unstamped, List.length_map, List.map_drop]

theorem define_unstamped (mutability : Mutability) :
    env.unstamped.define name value.unstamped mutability
      = (env.define name value mutability).unstamped := by
  obtain ⟨locals, globals⟩ := env
  -- at the top a name is defined globally
  cases locals with
  | nil =>
    have inserted := globals.insert_unstamped name value mutability
    exact congrArg (Environment.mk []) inserted
  | cons frame outer =>
    have inserted := frame.insert_unstamped name value mutability
    exact congrArg (fun frame => Environment.mk (frame :: outer.map Frame.unstamped) _) inserted

theorem replaceNearest_unstamped (frames : List Frame) :
    replaceNearest name value.unstamped (frames.map Frame.unstamped)
      = (replaceNearest name value frames).map (·.map Frame.unstamped) := by
  induction frames with
  | nil => rfl
  | cons frame frames ih =>
    simp only [List.map_cons, replaceNearest, Frame.get?_unstamped]
    cases Table.get? frame name with
    -- not here, so further out
    | none =>
      simp only [Option.map_none, ih, Option.map_map]
      rfl
    | some b =>
      have inserted := frame.insert_unstamped name value b.mutability
      exact congrArg (fun frame => some (frame :: frames.map Frame.unstamped)) inserted

/-- An assignment takes no notice of stamps. -/
theorem assign_unstamped :
    env.unstamped.assign name value.unstamped = (env.assign name value).map unstamped := by
  have inserted := env.globals.insert_unstamped name value .mutable
  unfold assign
  rw [isFrozen_unstamped]
  split
  · rfl
  · simp only [unstamped, replaceNearest_unstamped, inserted]
    cases replaceNearest name value env.locals <;> rfl

theorem defineConst_unstamped :
    env.unstamped.defineConst name value.unstamped = (env.defineConst name value).map unstamped := by
  unfold defineConst
  rw [isFrozen_unstamped, define_unstamped]
  split <;> rfl

theorem refreshFunction_unstamped (frame : Frame) :
    refreshFunction name value.unstamped frame.unstamped
      = (refreshFunction name value frame).unstamped := by
  have inserted := frame.insert_unstamped name value .mutable
  unfold refreshFunction
  rw [Frame.get?_unstamped]
  -- only a mutable function is replaced, with or without its stamp
  rcases Table.get? frame name with _ | ⟨old, mutability⟩
  · rfl
  · cases mutability <;> cases old <;> first | rfl | exact inserted

/-- Neither does a definition of a function. -/
theorem defineFunction_unstamped : env.unstamped.defineFunction name value.unstamped
    = (env.defineFunction name value).map unstamped := by
  have inserted := env.globals.insert_unstamped name value .mutable
  unfold defineFunction
  rw [isFrozen_unstamped]
  split
  · rfl
  · simp only [unstamped, inserted, List.map_map, Except.map]
    congr 2
    exact List.map_congr_left fun frame _ => refreshFunction_unstamped name value frame

end Environment

namespace Eval

variable {w w' : World}

namespace World.Twin

theorem refl (w : World) : w.Twin w :=
  ⟨rfl, rfl⟩

theorem trans {w'' : World} (first : w.Twin w') (rest : w'.Twin w'') : w.Twin w'' :=
  ⟨rest.env.trans first.env, rest.output.trans first.output⟩

end World.Twin

/-- Two runs of the same code in worlds that differ in stamps only. -/
def unstamping : Pairing where
  Scope := Unit
  code _ _ := True
  value v v' := v'.unstamped = v.unstamped
  world _ w w' := w.Twin w'

variable {c : unstamping.Scope} {v v' : Value} {values values' : List Value} {name : String}

/-- A change that does not look at stamps keeps to the pairing. -/
theorem unstamping_together {change change' : Except Refusal Environment} (output : w'.output = w.output)
    (same : change'.map Environment.unstamped = change.map Environment.unstamped) :
    unstamping.Together c w w' change change' := by
  -- stamps do not decide whether a change is refused
  cases change with
  | ok env =>
    cases change' with
    | ok env' =>
      injection same with same
      exact ⟨fun _ h => by cases h; exact ⟨env', rfl, same, output⟩, nofun⟩
    | error refusal => cases same
  | error refusal =>
    cases change' with
    | ok env' => cases same
    | error refusal' => exact ⟨nofun, fun _ _ => ⟨refusal', rfl⟩⟩

/-- Functions with the same code, made in worlds that differ in stamps only. -/
theorem unstamped_made (twin : w.Twin w') (name : Option String) (params : List String)
    (body : List Expr) :
    (Value.function ⟨w'.created, name, params, body, w'.env.snapshot⟩).unstamped
      = (Value.function ⟨w.created, name, params, body, w.env.snapshot⟩).unstamped := by
  rw [Value.unstamped_function, Value.unstamped_function, ← Environment.snapshot_unstamped,
    ← Environment.snapshot_unstamped, twin.env]

/-- A scope loses its stamps value by value. -/
theorem unstamped_scopeOf (names : List String) (values : List Value) :
    (scopeOf (names.zip values)).unstamped = scopeOf (names.zip (values.map Value.unstamped)) := by
  refine (Table.insertAll_mapValues Binding.unstamped [] _).symm.trans (congrArg _ ?_)
  rw [Table.mapValues, List.zip_map_right, List.map_map, List.map_map]
  rfl

/-- Scopes that hold arguments which differ in stamps only. -/
theorem unstamped_scopes (names : List String) (related : List.Forall₂ unstamping.value values values') :
    (scopeOf (names.zip values')).unstamped = (scopeOf (names.zip values)).unstamped := by
  have same : values'.map Value.unstamped = values.map Value.unstamped := by
    induction related with
    | nil => rfl
    | cons same _ ih => exact congrArg₂ List.cons same ih
  rw [unstamped_scopeOf, unstamped_scopeOf, same]

/-- The scopes are entered and left together. -/
theorem unstamping_enters (twin : w.Twin w') {scopes scopes' : List Frame} {body : List Expr}
    (same : scopes'.map Frame.unstamped = scopes.map Frame.unstamped) :
    unstamping.Enters c w w' scopes scopes' body := by
  refine ⟨c, ⟨?_, twin.output⟩, fun _ _ => trivial, fun u u' inner => ⟨?_, inner.output⟩⟩
  · have locals := congrArg Environment.locals twin.env
    have globals := congrArg Environment.globals twin.env
    simp only [Environment.unstamped] at locals globals
    simp only [Law.inside, Environment.unstamped, List.map_append, same, locals, globals]
  · -- the scopes are left at the same depth
    have depth : w'.env.depth = w.env.depth := by
      rw [← w'.env.depth_unstamped, twin.env, w.env.depth_unstamped]
    simp only [Law.outside]
    rw [← Environment.truncate_unstamped, ← Environment.truncate_unstamped, inner.env, depth]

/-- No step of evaluation looks at a stamp. -/
theorem unstamping_sound : unstamping.Sound where
  shape same := Value.looksLike_of_unstamped same
  data _ := rfl
  operands _ _ _ _ _ _ _ := trivial
  call _ _ := ⟨trivial, fun _ _ => trivial⟩
  indirect _ _ _ _ := trivial
  inits _ _ _ := trivial
  lookup {c w w' name span} _ twin := by
    -- both names are found in the same environment once the stamps are gone, or neither is
    have same := w'.env.lookup_unstamped name
    rw [twin.env, w.env.lookup_unstamped name] at same
    generalize w.env.lookup name = v? at same ⊢
    generalize w'.env.lookup name = v?' at same ⊢
    cases v? <;> cases v?'
    · exact .none
    · cases same
    · cases same
    · exact .some (Option.some.inj same).symm
  print twin line := ⟨twin.env, congrArg (·.println line) twin.output⟩
  lambda twin _ _ _ := ⟨unstamped_made twin none _ _, twin.env, twin.output⟩
  assign {c w w' name span v v'} _ twin same := by
    refine unstamping_together twin.output ?_
    rw [← Environment.assign_unstamped, ← Environment.assign_unstamped, twin.env, same]
  const {c w w' name span v v'} _ twin same := by
    refine unstamping_together twin.output ?_
    rw [← Environment.defineConst_unstamped, ← Environment.defineConst_unstamped, twin.env, same]
  defun {c w w' head hs name ns params body span names} twin _ _ _ := by
    refine ⟨⟨twin.env, twin.output⟩, unstamping_together twin.output ?_⟩
    rw [← Environment.defineFunction_unstamped, ← Environment.defineFunction_unstamped, twin.env,
      unstamped_made twin]
  invoke {c w w' f g values values'} twin same related _ := by
    have params := (Value.looksLike_of_unstamped same).function_eq.2.1
    have captures : Frame.unstamped g.captures = Frame.unstamped f.captures := by
      have same := (Value.unstamped_function g).symm.trans (same.trans (Value.unstamped_function f))
      injection same with same
      exact congrArg Closure.captures same
    -- both calls enter the captures and the arguments, which are the same without stamps
    refine unstamping_enters twin ?_
    simp only [List.map_cons, List.map_nil, params, captures, unstamped_scopes f.params related]
  letIn twin _ related _ := by
    refine unstamping_enters twin ?_
    rw [List.map_singleton, List.map_singleton, unstamped_scopes _ related]

/-- In worlds that differ in stamps only, an expression ends in the same way. -/
theorem evalWith_twin (twin : w.Twin w') {config : Config} {fuel : Nat} {e : Expr} {u : World}
    (run : evalWith config fuel e w = .ok v u) :
    ∃ v' u', evalWith config fuel e w' = .ok v' u' ∧ v'.unstamped = v.unstamped ∧ u.Twin u' :=
  (unstamping.agree_evalWith unstamping_sound config fuel (c := ()) trivial w w' twin).ok v u run

end Eval

end TwinLisp
