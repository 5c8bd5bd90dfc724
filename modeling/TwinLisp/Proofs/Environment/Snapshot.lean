import TwinLisp.Environment.Operations
import TwinLisp.Proofs.Environment

/-!
What a snapshot captures. Frames never get two pairs of one name, whatever is done to an environment;
so it makes no difference in which order their pairs are taken, and flattening them from the outermost
one on finds what a search from the innermost one on finds.
-/

namespace TwinLisp

/-- Where no frame has a name twice, flattening keeps what is visible. -/
theorem get?_flatten {frames : List Frame} (distinct : ∀ frame ∈ frames, frame.Distinct)
    (name : String) : (flatten frames).get? name = frames.findSome? (·.get? name) := by
  induction frames with
  | nil => rfl
  | cons frame frames ih =>
    obtain ⟨here, outer⟩ := List.forall_mem_cons.mp distinct
    -- the innermost frame is put in last and hides what is there
    rw [Table.get?_eq_head?, flatten_cons, Table.entries_insertAll, here.getLast?_entries,
      List.findSome?_cons, ← ih outer]
    cases frame.get? name with
    | some b => rfl
    | none => exact (Table.get?_eq_head? _ name).symm

/-- However the frames overlap, a flattened one has each name once. -/
theorem distinct_flatten (frames : List Frame) : (flatten frames).Distinct := by
  induction frames with
  | nil => exact List.nodup_nil
  | cons frame frames ih =>
    rw [flatten_cons]
    exact ih.insertAll frame

/-- The order of the pairs in each frame makes no difference to a search through the frames. -/
theorem findSome?_perm {frames orders : List Frame} (perm : List.Forall₂ List.Perm frames orders)
    (distinct : ∀ frame ∈ frames, frame.Distinct) (name : String) :
    orders.findSome? (·.get? name) = frames.findSome? (·.get? name) := by
  induction perm with
  | nil => rfl
  | cons same _ ih =>
    obtain ⟨here, outer⟩ := List.forall_mem_cons.mp distinct
    rw [List.findSome?_cons, List.findSome?_cons, here.get?_perm same, ih outer]

theorem distinct_of_perm {frames orders : List Frame}
    (perm : List.Forall₂ List.Perm frames orders) (distinct : ∀ frame ∈ frames, frame.Distinct) :
    ∀ frame ∈ orders, frame.Distinct := by
  induction perm with
  | nil => exact distinct
  | cons same _ ih =>
    obtain ⟨here, outer⟩ := List.forall_mem_cons.mp distinct
    exact List.forall_mem_cons.mpr ⟨here.perm same, ih outer⟩

namespace Environment

variable {env env' : Environment} {name : String} {value : Value} {frame : Frame}

/-- No frame has two pairs of one name. -/
def Distinct (env : Environment) : Prop :=
  ∀ frame ∈ env.frames, frame.Distinct

theorem Stems.distinct (stems : env.Stems value frame) (distinct : env.Distinct) :
    frame.Distinct := by
  rcases stems with kept | ⟨old, mem, name, mutability, rfl⟩
  · exact distinct frame kept
  · exact (distinct old mem).insert name ⟨value, mutability⟩

/-- One operation. A frame that is entered has no two pairs of a name, and every other frame is one
that was there, at most with a binding inserted. -/
theorem Distinct.perform (distinct : env.Distinct) (operation : Operation) :
    (env.perform operation).Distinct := by
  have stemming {env' : Environment} {value : Value}
      (stems : ∀ frame ∈ env'.frames, env.Stems value frame) : env'.Distinct :=
    fun frame mem => (stems frame mem).distinct distinct
  -- what is refused changes nothing
  have refusable {change : Except Refusal Environment}
      (accepted : ∀ env', change = .ok env' → env'.Distinct) :
      (change.toOption.getD env).Distinct := by
    cases change with
    | error => exact distinct
    | ok env' => exact accepted env' rfl
  -- frames are only taken away
  have fewer {locals : List Frame} (sub : ∀ frame ∈ locals, frame ∈ env.locals) :
      Environment.Distinct ⟨locals, env.globals⟩ := by
    intro frame mem
    exact distinct frame (mem_frames_iff.mpr ((mem_frames_iff.mp mem).imp_left (sub frame)))
  cases operation with
  | pushScope => exact List.forall_mem_cons.mpr ⟨List.nodup_nil, distinct⟩
  | pushCaptures captures new => exact List.forall_mem_cons.mpr ⟨new, distinct⟩
  | popScope => exact fewer fun _ => List.mem_of_mem_tail
  | truncate depth => exact fewer fun _ => List.mem_of_mem_drop
  | define name value mutability => exact stemming (stems_define mutability)
  | assign name value => exact refusable fun _ h => stemming (stems_assign h)
  | defineConst name value => exact refusable fun _ h => stemming (stems_defineConst h)
  | defineFunction name value => exact refusable fun _ h => stemming (stems_defineFunction h)

/-- By induction on the operations. -/
theorem Distinct.performAll (distinct : env.Distinct) (operations : List Operation) :
    (env.performAll operations).Distinct := by
  induction operations generalizing env with
  | nil => exact distinct
  | cons operation operations ih => exact ih (distinct.perform operation)

theorem distinct_initial (nil : String) : (initial nil).Distinct := by
  intro frame mem
  rw [List.mem_singleton.mp mem]
  exact List.nodup_singleton nil

theorem sees_iff {b : Binding Value} : env.Sees name b ↔ env.binding? name = some b := by
  rw [binding?_eq_findSome?, List.findSome?_eq_some_iff]
  constructor
  · rintro ⟨inner, frame, outer, split, unbound, bound⟩
    exact ⟨inner, frame, outer, split, bound, unbound⟩
  · rintro ⟨inner, frame, outer, split, bound, unbound⟩
    exact ⟨inner, frame, outer, split, unbound, bound⟩

/-- A snapshot finds what the environment finds. -/
theorem IsSnapshot.get? {captures : Frame} (taken : env.IsSnapshot captures)
    (distinct : env.Distinct) (name : String) : captures.get? name = env.binding? name := by
  obtain ⟨orders, perm, same⟩ := taken
  calc captures.get? name
      = (flatten orders).get? name := (distinct_flatten orders).get?_perm same.symm name
    _ = orders.findSome? (·.get? name) := get?_flatten (distinct_of_perm perm distinct) name
    _ = env.frames.findSome? (·.get? name) := findSome?_perm perm distinct name
    _ = env.binding? name := (binding?_eq_findSome? env name).symm

theorem isSnapshot_snapshot (env : Environment) : env.IsSnapshot env.snapshot :=
  ⟨env.frames, List.forall₂_same.mpr fun frame _ => .refl frame, .refl _⟩

/-- To enter the frame of what is visible makes no difference to what is visible. -/
theorem binding?_pushFrame {captures : Frame} (same : captures.get? name = env.binding? name) :
    (env.pushFrame captures).binding? name = env.binding? name := by
  rw [binding?_eq_findSome?]
  change (captures :: env.frames).findSome? (Table.get? · name) = _
  rw [List.findSome?_cons, same, binding?_eq_findSome?]
  -- what the captures do not hold is not found in the frames behind them either
  cases env.frames.findSome? (·.get? name) with
  | none => rfl
  | some b => rfl

/-- Whether a change is refused depends on the visible binding only. -/
theorem refused_iff {refusal : Refusal} :
    (env.assign name value = .error refusal ↔ env.isFrozen name = true ∧ refusal = .frozen) ∧
    (env.defineConst name value = .error refusal ↔
      env.isFrozen name = true ∧ refusal = .alreadyConst) ∧
    (env.defineFunction name value = .error refusal ↔
      env.isFrozen name = true ∧ refusal = .frozen) := by
  unfold assign defineConst defineFunction
  cases env.isFrozen name with
  | true => simp [eq_comm]
  | false =>
    -- none of the three refuses; a definition still asks where the name is bound
    simp only [Bool.false_eq_true, if_false, reduceCtorEq, false_and, and_self, and_true, iff_false]
    split
    · exact nofun
    · exact nofun

/-- What is entered hides nothing if it finds what is found already. -/
theorem captured_of_get? {captures : Frame}
    (same : ∀ name, captures.get? name = env.binding? name) : env.Captured captures := by
  have frozen (name : String) : (env.pushFrame captures).isFrozen name = env.isFrozen name := by
    unfold isFrozen
    rw [binding?_pushFrame (same name)]
  constructor
  case names =>
    intro name
    rw [same, binding?_eq_findSome?, List.findSome?_isSome_iff]
  case bindings =>
    intro name b
    rw [same, sees_iff]
  case lookup =>
    intro name
    unfold lookup
    rw [binding?_pushFrame (same name)]
  -- whether a change is refused depends on what is visible, and that is the same
  case assign =>
    intro name value refusal
    rw [refused_iff.1, refused_iff.1, frozen]
  case defineConst =>
    intro name value refusal
    rw [refused_iff.2.1, refused_iff.2.1, frozen]
  case defineFunction =>
    intro name value refusal
    rw [refused_iff.2.2, refused_iff.2.2, frozen]

/-- Whatever has been done to an environment, and in whatever order the pairs of its frames are taken,
a snapshot holds exactly what is visible: names, values and mutability. When it is entered, every name
is found as before, and the same changes are refused. -/
theorem captured_of_isSnapshot (nil : String) (operations : List Operation) :
    let env := (initial nil).performAll operations
    env.IsSnapshot env.snapshot ∧ ∀ captures, env.IsSnapshot captures → env.Captured captures := by
  intro env
  have distinct : env.Distinct := (distinct_initial nil).performAll operations
  constructor
  · exact isSnapshot_snapshot env
  · intro captures taken
    exact captured_of_get? (taken.get? distinct)

/-- A constant that hides a variable, with the pairs of the global frame and those of the snapshot the
other way round: the variable is not captured, and the constant stays one. -/
theorem captured_of_isSnapshot_hidden :
    let env := (initial "nil").performAll [.define "x" (.int 1) .mutable, .pushScope,
      .defineConst "x" (.int 2), .assign "x" (.int 3)]
    let captures : Frame := [("nil", ⟨.nil, .mutable⟩), ("x", ⟨.int 2, .frozen⟩)]
    env.IsSnapshot captures ∧ env.Sees "x" ⟨.int 2, .frozen⟩ ∧
      (env.pushFrame captures).lookup "x" = some (.int 2) ∧
      ∀ value, (env.pushFrame captures).assign "x" value = .error .frozen := by
  intro env captures
  have taken : env.IsSnapshot captures := by
    -- the pairs of the global frame change places, and so do those of the flattened frames
    refine ⟨[[("x", ⟨.int 2, .frozen⟩)], [("x", ⟨.int 1, .mutable⟩), ("nil", ⟨.nil, .mutable⟩)]],
      ?_, ?_⟩
    · exact .cons (.refl _) (.cons (.swap _ _ _) .nil)
    · exact .swap _ _ _
  have captured := (captured_of_isSnapshot "nil" _).2 captures taken
  refine ⟨taken, (captured.bindings "x" _).mp rfl, ?_, fun value => ?_⟩
  · rw [captured.lookup]
    rfl
  · rw [captured.assign]
    rfl

end Environment

end TwinLisp
