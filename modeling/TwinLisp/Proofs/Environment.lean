import Mathlib.Data.List.Forall2
import TwinLisp.Environment
import TwinLisp.Proofs.Table

/-! What holds of every value in an environment, and what its operations do to constants. -/

namespace TwinLisp

theorem forall₂_trans {α : Type} {R : α → α → Prop} (trans : ∀ {a b c}, R a b → R b c → R a c)
    {as bs cs : List α} (first : List.Forall₂ R as bs) (rest : List.Forall₂ R bs cs) :
    List.Forall₂ R as cs := by
  induction first generalizing cs with
  | nil => exact rest
  | cons h _ ih =>
    cases rest with
    | cons h' rest => exact .cons (trans h h') (ih rest)

/-- Two things that are looked up and are related are both missing or both found. -/
theorem rel_cases {α β : Type} {R : α → β → Prop} {x : Option α} {y : Option β}
    (h : Option.Rel R x y) : (x = none ∧ y = none) ∨ ∃ a b, x = some a ∧ y = some b ∧ R a b := by
  cases h with
  | none => exact .inl ⟨rfl, rfl⟩
  | some related => exact .inr ⟨_, _, rfl, rfl, related⟩

/-- The frames of one stack flattened, the innermost binding of each name winning. -/
def flatten (frames : List Frame) : Frame :=
  frames.reverse.foldl Table.insertAll []

theorem flatten_cons (frame : Frame) (frames : List Frame) :
    flatten (frame :: frames) = Table.insertAll (flatten frames) frame := by
  simp [flatten]

/-- In flattened frames a name stands for what the innermost frame that has it ends up with. -/
theorem entries_flatten (frames : List Frame) (name : String) :
    Table.entries (flatten frames) name =
      (frames.findSome? fun frame => (Table.entries frame name).getLast?).toList := by
  induction frames with
  | nil => rfl
  | cons frame frames ih =>
    rw [flatten_cons, Table.entries_insertAll, ih, List.findSome?_cons]
    cases (Table.entries frame name).getLast? with
    | none => rfl
    | some b => cases frames.findSome? _ <;> rfl

theorem mem_flatten {frames : List Frame} {entry : String × Binding Value}
    (mem : entry ∈ flatten frames) : ∃ frame ∈ frames, entry ∈ frame := by
  induction frames with
  | nil => cases mem
  | cons frame frames ih =>
    rw [flatten_cons] at mem
    -- the innermost frame is put into what the outer ones have been flattened to
    rcases Table.mem_insertAll mem with here | outer
    · exact ⟨frame, List.mem_cons_self, here⟩
    · obtain ⟨f, hf, mem⟩ := ih outer
      exact ⟨f, List.mem_cons_of_mem _ hf, mem⟩

namespace Environment

variable {env env' : Environment} {name : String} {value : Value} {P : Value → Prop}
  {frames frames' : List Frame}

/-- Of the frames that bind the name, only the innermost one is changed. -/
theorem replaceNearest_eq_some_iff : replaceNearest name value frames = some frames' ↔
    ∃ inner frame b outer, frames = inner ++ frame :: outer ∧
      (∀ f ∈ inner, f.get? name = none) ∧ frame.get? name = some b ∧
      frames' = inner ++ frame.insert name ⟨value, b.mutability⟩ :: outer := by
  constructor
  · intro replaced
    -- the frames passed by on the way are those that do not bind the name
    induction frames generalizing frames' with
    | nil => cases replaced
    | cons first rest ih =>
      unfold replaceNearest at replaced
      split at replaced
      next b bound =>
        cases replaced
        exact ⟨[], first, b, rest, rfl, nofun, bound, rfl⟩
      next unbound =>
        obtain ⟨rest', deeper, rfl⟩ := Option.map_eq_some_iff.mp replaced
        obtain ⟨inner, frame, b, outer, rfl, free, bound, rfl⟩ := ih deeper
        exact ⟨first :: inner, frame, b, outer, rfl, List.forall_mem_cons.mpr ⟨unbound, free⟩,
          bound, rfl⟩
  · rintro ⟨inner, frame, b, outer, rfl, free, bound, rfl⟩
    -- each of the frames `inner` is passed by
    induction inner with
    | nil =>
      rw [List.nil_append, replaceNearest, bound]
      rfl
    | cons first inner ih =>
      obtain ⟨unbound, free⟩ := List.forall_mem_cons.mp free
      rw [List.cons_append, replaceNearest, unbound]
      exact congrArg (Option.map (first :: ·)) (ih free)

theorem replaceNearest_eq_none (h : replaceNearest name value frames = none) :
    frames.findSome? (·.get? name) = none := by
  induction frames with
  | nil => rfl
  | cons frame outer ih =>
    unfold replaceNearest at h
    split at h
    next => cases h
    next unbound =>
      rw [List.findSome?_cons, unbound]
      exact ih (Option.map_eq_none_iff.mp h)

/-- What lies below the frame that is changed does not matter. -/
theorem replaceNearest_append (replaced : replaceNearest name value frames = some frames')
    (rest : List Frame) : replaceNearest name value (frames ++ rest) = some (frames' ++ rest) := by
  obtain ⟨inner, frame, b, outer, rfl, free, bound, rfl⟩ := replaceNearest_eq_some_iff.mp replaced
  exact replaceNearest_eq_some_iff.mpr ⟨inner, frame, b, outer ++ rest, List.append_assoc .., free,
    bound, List.append_assoc ..⟩

/-- A relation that holds between a frame and itself relates the frames to what becomes of them, if
it holds where the name is found. -/
theorem forall₂_replaceNearest {R : Frame → Frame → Prop} (refl : ∀ frame, R frame frame)
    (replaced : replaceNearest name value frames = some frames')
    (here : ∀ frame b, frames.findSome? (·.get? name) = some b → frame.get? name = some b →
      R frame (frame.insert name ⟨value, b.mutability⟩)) : List.Forall₂ R frames frames' := by
  obtain ⟨inner, frame, b, outer, rfl, free, bound, rfl⟩ := replaceNearest_eq_some_iff.mp replaced
  -- the frame that is changed is the first one that binds the name
  have nearest : (inner ++ frame :: outer).findSome? (·.get? name) = some b := by
    rw [List.findSome?_append, List.findSome?_eq_none_iff.mpr free, Option.none_or,
      List.findSome?_cons, bound]
  have same (frames : List Frame) : List.Forall₂ R frames frames :=
    List.forall₂_same.mpr fun frame _ => refl frame
  exact List.rel_append (same inner) (.cons (here frame b nearest bound) (same outer))

theorem assign_of_frozen (frozen : env.isFrozen name = true) :
    env.assign name value = .error .frozen :=
  if_pos frozen

theorem assign_of_some (free : env.isFrozen name = false)
    (replaced : replaceNearest name value env.locals = some frames) :
    env.assign name value = .ok { env with locals := frames } := by
  unfold assign
  rw [free, if_neg Bool.false_ne_true, replaced]

/-- A name that is nowhere bound becomes global. -/
theorem assign_of_none (free : env.isFrozen name = false)
    (unbound : replaceNearest name value env.locals = none) :
    env.assign name value =
      .ok { env with globals := env.globals.insert name ⟨value, .mutable⟩ } := by
  unfold assign
  rw [free, if_neg Bool.false_ne_true, unbound]

/-- An assignment to a name that is no constant changes the local frame that it is found in, or else
the global one. -/
theorem assign_ok (h : env.assign name value = .ok env') : env.isFrozen name = false ∧
    ((∃ locals, replaceNearest name value env.locals = some locals ∧
        env' = { env with locals }) ∨
      replaceNearest name value env.locals = none ∧
        env' = { env with globals := env.globals.insert name ⟨value, .mutable⟩ }) := by
  -- the cases of the definition: refused, a local binding changed, or a global one made
  cases free : env.isFrozen name with
  | true =>
    rw [assign_of_frozen free] at h
    cases h
  | false =>
    refine ⟨rfl, ?_⟩
    cases replaced : replaceNearest name value env.locals with
    | some locals =>
      rw [assign_of_some free replaced] at h
      cases h
      exact .inl ⟨locals, rfl, rfl⟩
    | none =>
      rw [assign_of_none free replaced] at h
      cases h
      exact .inr ⟨rfl, rfl⟩

/-- A new binding is one of the global frame, or of the innermost local one if there is any. -/
theorem define_cases (env : Environment) (name : String) (value : Value) (mutability : Mutability) :
    (env.locals = [] ∧ env.define name value mutability =
        { env with globals := env.globals.insert name ⟨value, mutability⟩ }) ∨
      ∃ frame outer, env.locals = frame :: outer ∧ env.define name value mutability =
        { env with locals := frame.insert name ⟨value, mutability⟩ :: outer } := by
  unfold define
  split
  next outside => exact .inl ⟨outside, rfl⟩
  next frame outer inside => exact .inr ⟨frame, outer, inside, rfl⟩

theorem defineConst_of_frozen (frozen : env.isFrozen name = true) :
    env.defineConst name value = .error .alreadyConst :=
  if_pos frozen

theorem defineConst_of_free (free : env.isFrozen name = false) :
    env.defineConst name value = .ok (env.define name value .frozen) :=
  if_neg (free ▸ Bool.false_ne_true)

theorem defineConst_ok (h : env.defineConst name value = .ok env') :
    env.isFrozen name = false ∧ env' = env.define name value .frozen := by
  cases free : env.isFrozen name with
  | true =>
    rw [defineConst_of_frozen free] at h
    cases h
  | false =>
    rw [defineConst_of_free free] at h
    cases h
    exact ⟨rfl, rfl⟩

/-- A frame keeps what it has under the name, or had a function there that has been replaced. -/
theorem refreshFunction_cases (name : String) (value : Value) (frame : Frame) :
    refreshFunction name value frame = frame ∨
      ∃ f, frame.get? name = some ⟨.function f, .mutable⟩ ∧
        refreshFunction name value frame = frame.insert name ⟨value, .mutable⟩ := by
  unfold refreshFunction
  split
  next f bound => exact .inr ⟨f, bound, rfl⟩
  next => exact .inl rfl

/-- A definition that succeeds is not hindered by the visible binding; it changes every frame. -/
theorem defineFunction_ok (h : env.defineFunction name value = .ok env') :
    env.isFrozen name = false ∧ env' = ⟨env.locals.map (refreshFunction name value),
      env.globals.insert name ⟨value, .mutable⟩⟩ := by
  unfold defineFunction at h
  split at h
  next => cases h
  next free =>
    cases h
    exact ⟨Bool.not_eq_true _ ▸ free, rfl⟩

/-- Leaving scopes drops the frames that have been added since. -/
theorem truncate_depth {n : Nat} (length : env'.locals.length = env.locals.length + n) :
    env'.truncate env.depth = { env' with locals := env'.locals.drop n } := by
  have dropped : env'.locals.length - (env.depth - 1) = n := by
    unfold depth
    omega
  unfold truncate
  rw [dropped]

/-- Every value that is bound has the property. -/
def All (P : Value → Prop) (env : Environment) : Prop :=
  ∀ frame ∈ env.frames, ∀ b ∈ frame, P b.2.value

theorem mem_frames_iff {frame : Frame} :
    frame ∈ env.frames ↔ frame ∈ env.locals ∨ frame = env.globals := by
  unfold frames
  rw [List.mem_append, List.mem_singleton]

theorem all_iff : env.All P ↔
    (∀ frame ∈ env.locals, ∀ b ∈ frame, P b.2.value) ∧ ∀ b ∈ env.globals, P b.2.value := by
  simp only [All, mem_frames_iff, or_imp, forall_and, forall_eq]

theorem All.enter (all : env.All P) {scopes : List Frame}
    (values : ∀ frame ∈ scopes, ∀ b ∈ frame, P b.2.value) :
    All P { env with locals := scopes ++ env.locals } := by
  obtain ⟨inner, outer⟩ := all_iff.mp all
  refine all_iff.mpr ⟨fun frame mem => ?_, outer⟩
  rcases List.mem_append.mp mem with entered | below
  · exact values frame entered
  · exact inner frame below

theorem All.truncate (all : env.All P) (depth : Nat) : (env.truncate depth).All P := by
  obtain ⟨inner, outer⟩ := all_iff.mp all
  exact all_iff.mpr ⟨fun frame mem => inner frame (List.mem_of_mem_drop mem), outer⟩

theorem All.binding (all : env.All P) {b : Binding Value} (h : env.binding? name = some b) :
    P b.value := by
  rw [binding?_eq_findSome?] at h
  obtain ⟨frame, hframe, hget⟩ := List.exists_of_findSome?_eq_some h
  exact all frame hframe (name, b) (Table.mem_of_get? hget)

/-- What is looked up is one of the values. -/
theorem All.lookup (all : env.All P) (h : env.lookup name = some value) : P value := by
  obtain ⟨b, hb, rfl⟩ := Option.map_eq_some_iff.mp h
  exact all.binding hb

/-- A snapshot holds what is visible and nothing else. -/
theorem All.snapshot (all : env.All P) : ∀ b ∈ env.snapshot, P b.2.value := by
  intro b mem
  obtain ⟨frame, hf, mem⟩ := mem_flatten mem
  exact all frame hf b mem

/-- A frame of the environment, perhaps with the value put in under some name. -/
def Stems (env : Environment) (value : Value) (frame : Frame) : Prop :=
  frame ∈ env.frames ∨
    ∃ old ∈ env.frames, ∃ name mutability, frame = old.insert name ⟨value, mutability⟩

theorem stems_insert {frame : Frame} (mem : frame ∈ env.frames) (name : String)
    (mutability : Mutability) : env.Stems value (frame.insert name ⟨value, mutability⟩) :=
  .inr ⟨frame, mem, name, mutability, rfl⟩

/-- What is new in an environment are values that were put in. -/
theorem All.of_stems (all : env.All P) (hv : P value)
    (stems : ∀ frame ∈ env'.frames, env.Stems value frame) : env'.All P := by
  intro frame hf b hb
  rcases stems frame hf with kept | ⟨old, hold, name, mutability, rfl⟩
  · exact all frame kept b hb
  · rcases Table.mem_insert hb with rfl | hb
    · exact hv
    · exact all old hold b hb

theorem mem_replaceNearest {frame : Frame}
    (replaced : replaceNearest name value frames = some frames') (mem : frame ∈ frames') :
    frame ∈ frames ∨ ∃ old ∈ frames, ∃ mutability, frame = old.insert name ⟨value, mutability⟩ := by
  obtain ⟨inner, first, b, outer, rfl, -, -, rfl⟩ := replaceNearest_eq_some_iff.mp replaced
  rcases List.mem_append.mp mem with mem | mem
  · exact .inl (List.mem_append_left _ mem)
  · rcases List.mem_cons.mp mem with rfl | mem
    · exact .inr ⟨first, List.mem_append_right _ List.mem_cons_self, _, rfl⟩
    · exact .inl (List.mem_append_right _ (List.mem_cons_of_mem _ mem))

theorem stems_assign (h : env.assign name value = .ok env') :
    ∀ frame ∈ env'.frames, env.Stems value frame := by
  intro frame mem
  obtain ⟨-, ⟨locals, replaced, rfl⟩ | ⟨-, rfl⟩⟩ := assign_ok h
  · rcases mem_frames_iff.mp mem with inner | rfl
    · rcases mem_replaceNearest replaced inner with kept | ⟨old, hold, mutability, rfl⟩
      · exact .inl (mem_frames_iff.mpr (.inl kept))
      · exact stems_insert (mem_frames_iff.mpr (.inl hold)) name mutability
    · exact .inl (mem_frames_iff.mpr (.inr rfl))
  · rcases mem_frames_iff.mp mem with inner | rfl
    · exact .inl (mem_frames_iff.mpr (.inl inner))
    · exact stems_insert (mem_frames_iff.mpr (.inr rfl)) name _

/-- Only the innermost frame is touched. -/
theorem stems_define (mutability : Mutability) :
    ∀ frame ∈ (env.define name value mutability).frames, env.Stems value frame := by
  intro frame mem
  -- the innermost frame is the global one, or the first of the local ones
  obtain ⟨-, defined⟩ | ⟨first, outer, hlocals, defined⟩ := define_cases env name value mutability
  · rw [defined] at mem
    rcases mem_frames_iff.mp mem with inner | rfl
    · exact .inl (mem_frames_iff.mpr (.inl inner))
    · exact stems_insert (mem_frames_iff.mpr (.inr rfl)) name mutability
  · rw [defined] at mem
    rcases mem_frames_iff.mp mem with inner | rfl
    · rcases List.mem_cons.mp inner with rfl | inner
      · have held : first ∈ env.locals := hlocals ▸ List.mem_cons_self
        exact stems_insert (mem_frames_iff.mpr (.inl held)) name mutability
      · have held : frame ∈ env.locals := hlocals ▸ List.mem_cons_of_mem _ inner
        exact .inl (mem_frames_iff.mpr (.inl held))
    · exact .inl (mem_frames_iff.mpr (.inr rfl))

theorem stems_defineConst (h : env.defineConst name value = .ok env') :
    ∀ frame ∈ env'.frames, env.Stems value frame := by
  obtain ⟨-, rfl⟩ := defineConst_ok h
  exact stems_define .frozen

theorem stems_defineFunction (h : env.defineFunction name value = .ok env') :
    ∀ frame ∈ env'.frames, env.Stems value frame := by
  intro frame mem
  obtain ⟨-, rfl⟩ := defineFunction_ok h
  rcases mem_frames_iff.mp mem with inner | rfl
  · obtain ⟨old, hold, rfl⟩ := List.mem_map.mp inner
    have held := mem_frames_iff.mpr (.inl hold)
    obtain kept | ⟨f, -, replaced⟩ := refreshFunction_cases name value old
    · rw [kept]
      exact .inl held
    · rw [replaced]
      exact stems_insert held name _
  · exact stems_insert (mem_frames_iff.mpr (.inr rfl)) name _

end Environment

/-- Every constant of the first frame is the same constant in the second one. -/
def KeepsConsts (frame frame' : Frame) : Prop :=
  ∀ name value, frame.get? name = some ⟨value, .frozen⟩ → frame'.get? name = some ⟨value, .frozen⟩

theorem KeepsConsts.refl (frame : Frame) : KeepsConsts frame frame := fun _ _ h => h

theorem KeepsConsts.trans {f g h : Frame} (first : KeepsConsts f g) (rest : KeepsConsts g h) :
    KeepsConsts f h :=
  fun name value held => rest name value (first name value held)

/-- Only the entry of `name` changes, and it is no constant. -/
theorem KeepsConsts.insert {frame : Frame} {name : String} (b : Binding Value)
    (mutable : ∀ value, frame.get? name ≠ some ⟨value, .frozen⟩) :
    KeepsConsts frame (frame.insert name b) := by
  intro other value held
  rw [Table.get?_insert]
  split
  next same => exact absurd (same ▸ held) (mutable value)
  next => exact held

namespace Environment

variable {env env' : Environment} {name : String} {value : Value}

/-- What is visible first is no constant. -/
theorem not_frozen_of_isFrozen (free : env.isFrozen name = false) {b : Binding Value}
    (nearest : env.binding? name = some b) : b.mutability ≠ .frozen := by
  intro frozen
  simp only [isFrozen, nearest, Option.any_some, frozen, beq_self_eq_true, Bool.true_eq_false] at free

theorem lookup_of_binding? {b : Binding Value} (h : env.binding? name = some b) :
    env.lookup name = some b.value := by
  rw [lookup, h, Option.map_some]

theorem binding?_of_locals {b : Binding Value}
    (h : env.locals.findSome? (·.get? name) = some b) : env.binding? name = some b := by
  simp only [binding?, h]

theorem binding?_of_globals (h : env.locals.findSome? (·.get? name) = none) :
    env.binding? name = env.globals.get? name := by
  simp only [binding?, h]

/-- A name that no local frame binds can only be a constant of the global frame that is seen. -/
theorem globals_mutable (free : env.isFrozen name = false)
    (unbound : env.locals.findSome? (·.get? name) = none) (value : Value) :
    env.globals.get? name ≠ some ⟨value, .frozen⟩ := by
  intro held
  exact not_frozen_of_isFrozen free ((binding?_of_globals unbound).trans held) rfl

/-- `set` changes no constant. -/
theorem assign_keepsConsts (h : env.assign name value = .ok env') :
    List.Forall₂ KeepsConsts env.locals env'.locals ∧ KeepsConsts env.globals env'.globals := by
  obtain ⟨free, ⟨locals, replaced, rfl⟩ | ⟨unreplaced, rfl⟩⟩ := assign_ok h
  · refine ⟨forall₂_replaceNearest .refl replaced fun frame b nearest bound => ?_, .refl _⟩
    refine .insert _ fun old held => not_frozen_of_isFrozen free (binding?_of_locals nearest) ?_
    exact congrArg Binding.mutability (Option.some.inj (bound.symm.trans held))
  · -- no local frame binds the name, so what is seen is the global binding
    refine ⟨List.forall₂_same.mpr fun f _ => .refl f, .insert _ ?_⟩
    exact globals_mutable free (replaceNearest_eq_none unreplaced)

/-- `const` changes no other constant. -/
theorem defineConst_keepsConsts (h : env.defineConst name value = .ok env') :
    List.Forall₂ KeepsConsts env.locals env'.locals ∧ KeepsConsts env.globals env'.globals := by
  obtain ⟨free, rfl⟩ := defineConst_ok h
  obtain ⟨hlocals, defined⟩ | ⟨frame, outer, hlocals, defined⟩ := define_cases env name value .frozen
  · rw [defined]
    refine ⟨List.forall₂_same.mpr fun f _ => .refl f, .insert _ ?_⟩
    exact globals_mutable free (by rw [hlocals]; rfl)
  · rw [defined]
    -- a constant of that name in the innermost frame would have been seen
    refine ⟨hlocals ▸ .cons (.insert _ fun old held => ?_)
      (List.forall₂_same.mpr fun f _ => .refl f), .refl _⟩
    have nearest : env.locals.findSome? (·.get? name) = some ⟨old, .frozen⟩ := by
      rw [hlocals, List.findSome?_cons, held]
    exact not_frozen_of_isFrozen free (binding?_of_locals nearest) rfl

/-- Only a mutable function is ever replaced. -/
theorem refreshFunction_keepsConsts (frame : Frame) :
    KeepsConsts frame (refreshFunction name value frame) := by
  obtain kept | ⟨f, mutable, replaced⟩ := refreshFunction_cases name value frame
  · rw [kept]
    exact .refl frame
  · rw [replaced]
    exact .insert _ fun old held => by cases mutable.symm.trans held

/-- `defun` changes no constant of a local frame, and at most that of its own name globally. -/
theorem defineFunction_keepsConsts (h : env.defineFunction name value = .ok env') :
    List.Forall₂ KeepsConsts env.locals env'.locals ∧
      ∀ other, other ≠ name → env'.globals.get? other = env.globals.get? other := by
  obtain ⟨-, rfl⟩ := defineFunction_ok h
  constructor
  · rw [List.forall₂_map_right_iff]
    exact List.forall₂_same.mpr fun f _ => refreshFunction_keepsConsts f
  · intro other different
    rw [Table.get?_insert, if_neg (Ne.symm different)]

end Environment

end TwinLisp
