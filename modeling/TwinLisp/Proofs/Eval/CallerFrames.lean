import TwinLisp.Eval.SelfContained
import TwinLisp.Proofs.Eval.Stack

/-!
What a call leaves alone. While a function runs, a name that it captured or takes as a parameter is
bound by a frame of the call, so whatever is assigned or bound under that name, it is not in a frame
of the caller. Only a definition of a function of that name reaches below.
-/

namespace TwinLisp

namespace Environment

variable {env env' : Environment} {name other : String} {value : Value} {depth : Nat}

/-- Heights count from the global frame. -/
theorem frameAt?_eq_getElem? (env : Environment) (height : Nat) :
    env.frameAt? height = (env.globals :: env.locals.reverse)[height]? := by
  cases height <;> rfl

/-- The bindings of a name in the lowest frames, from the global one on. -/
def lowest (env : Environment) (depth : Nat) (name : String) : List (Option (Binding Value)) :=
  ((env.globals :: env.locals.reverse).take depth).map (·.get? name)

/-- The name is bound in a frame that lies above the lowest ones. -/
def Covers (env : Environment) (depth : Nat) (name : String) : Prop :=
  ∃ height frame, depth ≤ height ∧ env.frameAt? height = some frame ∧ (frame.get? name).isSome

/-- Frames that bind the name to the same as before. -/
theorem lowest_of_map (locals : env'.locals.map (·.get? name) = env.locals.map (·.get? name))
    (globals : env'.globals.get? name = env.globals.get? name) (depth : Nat) :
    env'.lowest depth name = env.lowest depth name := by
  unfold lowest
  rw [List.map_take, List.map_take, List.map_cons, List.map_cons, List.map_reverse, List.map_reverse,
    locals, globals]

/-- Frames on top do not matter. -/
theorem lowest_of_append (own own' base : List Frame) (before : env.locals = own ++ base)
    (after : env'.locals = own' ++ base)
    (globals : env'.globals.get? name = env.globals.get? name) (deep : depth ≤ base.length + 1) :
    env'.lowest depth name = env.lowest depth name := by
  have drop (g : Frame) (own : List Frame) :
      (g :: (own ++ base).reverse).take depth = (g :: base.reverse).take depth := by
    rw [List.reverse_append, ← List.cons_append]
    exact List.take_append_of_le_length (by simpa using deep)
  unfold lowest
  rw [before, after, drop, drop, List.map_take, List.map_take, List.map_cons, List.map_cons, globals]

/-- The global frame is the first of the lowest ones. -/
theorem globals_of_lowest (same : env'.lowest (depth + 1) name = env.lowest (depth + 1) name) :
    env'.globals.get? name = env.globals.get? name :=
  (List.cons.inj same).1

/-- A frame that is low enough binds the name to the same as before. -/
theorem get?_of_lowest (same : env'.lowest depth name = env.lowest depth name) {height : Nat}
    {frame : Frame} (low : height < depth) (found : env.frameAt? height = some frame) :
    ∃ frame', env'.frameAt? height = some frame' ∧ frame'.get? name = frame.get? name := by
  have here := congrArg (·[height]?) same
  simp only [lowest, List.getElem?_map, List.getElem?_take_of_lt low] at here
  rw [← frameAt?_eq_getElem?, ← frameAt?_eq_getElem?, found] at here
  exact Option.map_eq_some_iff.mp here

/-- No frame loses a name, so what covers the lowest frames goes on to do so. -/
theorem Covers.keeps (h : env.Covers depth name) (kept : env.Keeps env') :
    env'.Covers depth name := by
  obtain ⟨height, frame, above, found, bound⟩ := h
  obtain ⟨frame', found', names⟩ := kept.disciplined.kept height frame found
  exact ⟨height, frame', above, found', names name bound⟩

theorem Covers.lt_depth (h : env.Covers depth name) : depth < env.depth := by
  obtain ⟨height, frame, above, found, -⟩ := h
  rw [frameAt?_eq_getElem?] at found
  have := (List.getElem?_eq_some_iff.mp found).1
  simp only [List.length_cons, List.length_reverse] at this
  exact Nat.lt_of_le_of_lt above this

/-- The frames are those of the call, one of which binds the name, on top of the caller's. -/
theorem Covers.split (h : env.Covers (depth + 1) name) :
    ∃ own base, env.locals = own ++ base ∧ base.length = depth ∧
      ∃ frame ∈ own, (frame.get? name).isSome := by
  obtain ⟨height, frame, above, found, bound⟩ := h
  obtain ⟨height, rfl⟩ := Nat.exists_eq_add_of_le' (Nat.le_trans (Nat.le_add_left 1 depth) above)
  obtain ⟨low, rfl⟩ := List.getElem?_eq_some_iff.mp found
  rw [List.length_reverse] at low
  let top := env.locals.length - depth
  refine ⟨env.locals.take top, env.locals.drop top, (List.take_append_drop _ _).symm, ?_, _, ?_,
    bound⟩
  · rw [List.length_drop]
    omega
  · have inside : env.locals.length - 1 - height < top := by omega
    rw [List.getElem_reverse]
    exact List.mem_take_iff_getElem.mpr ⟨_, by omega, rfl⟩

/-- In frames one of which binds the name, a variable is found to assign to. -/
theorem exists_replaceNearest {frames : List Frame} {frame : Frame} (mem : frame ∈ frames)
    (bound : (frame.get? name).isSome) (value : Value) :
    ∃ frames', replaceNearest name value frames = some frames' := by
  cases replaced : replaceNearest name value frames with
  | some frames' => exact ⟨frames', rfl⟩
  | none =>
    have unbound := List.findSome?_eq_none_iff.mp (replaceNearest_eq_none replaced) frame mem
    rw [unbound] at bound
    cases bound

/-- Other names are bound to what they were bound to. -/
theorem map_get?_replaceNearest {frames frames' : List Frame} (different : other ≠ name)
    (replaced : replaceNearest other value frames = some frames') :
    frames'.map (·.get? name) = frames.map (·.get? name) := by
  obtain ⟨inner, frame, b, outer, rfl, -, -, rfl⟩ := replaceNearest_eq_some_iff.mp replaced
  simp [Table.get?_insert, different]

theorem get?_refreshFunction (different : other ≠ name) (frame : Frame) :
    (refreshFunction other value frame).get? name = frame.get? name := by
  obtain kept | ⟨f, -, replaced⟩ := refreshFunction_cases other value frame
  · rw [kept]
  · rw [replaced, Table.get?_insert, if_neg different]

/-- An assignment does not reach below a frame that binds the name. -/
theorem lowest_assign (covered : env.Covers (depth + 1) name)
    (h : env.assign other value = .ok env') :
    env'.lowest (depth + 1) name = env.lowest (depth + 1) name := by
  have changed := assign_ok h
  -- the name itself is assigned above; another name leaves the bindings of this one alone
  by_cases same : other = name
  · subst same
    obtain ⟨own, base, split, length, frame, mem, bound⟩ := covered.split
    obtain ⟨own', replaced⟩ := exists_replaceNearest mem bound value
    rw [split, replaceNearest_append replaced] at changed
    obtain ⟨-, ⟨_, found, rfl⟩ | ⟨unbound, -⟩⟩ := changed
    · cases found
      exact lowest_of_append own own' base split rfl rfl (by omega)
    · cases unbound
  · obtain ⟨-, ⟨locals, replaced, rfl⟩ | ⟨-, rfl⟩⟩ := changed
    · refine lowest_of_map ?_ ?_ _
      · exact map_get?_replaceNearest same replaced
      · rfl
    · refine lowest_of_map ?_ ?_ _
      · rfl
      · rw [Table.get?_insert, if_neg same]

/-- A constant is bound in the innermost frame, which is one of the call. -/
theorem lowest_defineConst (covered : env.Covers (depth + 1) name)
    (h : env.defineConst other value = .ok env') :
    env'.lowest (depth + 1) name = env.lowest (depth + 1) name := by
  have deep := covered.lt_depth
  unfold Environment.depth at deep
  obtain ⟨-, rfl⟩ := defineConst_ok h
  obtain ⟨hlocals, -⟩ | ⟨frame, outer, hlocals, defined⟩ := define_cases env other value .frozen
  · simp [hlocals] at deep
  · rw [hlocals, List.length_cons] at deep
    rw [defined]
    exact lowest_of_append [frame] [_] outer hlocals rfl rfl (by omega)

/-- Other names are bound to what they were bound to when a function is defined. -/
theorem lowest_defineFunction (different : other ≠ name)
    (h : env.defineFunction other value = .ok env') (depth : Nat) :
    env'.lowest depth name = env.lowest depth name := by
  obtain ⟨-, rfl⟩ := defineFunction_ok h
  refine lowest_of_map ?_ ?_ depth
  · simp [get?_refreshFunction different]
  · rw [Table.get?_insert, if_neg different]

theorem globals_defineFunction (h : env.defineFunction name value = .ok env') :
    env'.globals.get? name = some ⟨value, .mutable⟩ := by
  obtain ⟨-, rfl⟩ := defineFunction_ok h
  rw [Table.get?_insert, if_pos rfl]

/-- The lowest frames bind the name to the same as before, unless a definition of a function of that
name is admitted and has been evaluated. -/
def KeepsBelow (depth made : Nat) (name : String) (admits : Expr → Eval.World → Prop)
    (env env' : Environment) : Prop :=
  env'.lowest depth name = env.lowest depth name ∨
    env'.DefinesSince made name ∧ ∃ e w, admits e w ∧ e.defines name = true

theorem KeepsBelow.trans {made : Nat} {admits : Expr → Eval.World → Prop}
    {a b c : Environment}
    (first : KeepsBelow (depth + 1) made name admits a b)
    (rest : KeepsBelow (depth + 1) made name admits b c) :
    KeepsBelow (depth + 1) made name admits a c := by
  rcases rest with same' | defined
  · rcases first with same | ⟨⟨f, bound, named⟩, reached⟩
    · exact .inl (same'.trans same)
    · -- the definition is still there, as the name has kept its global binding since
      exact .inr ⟨⟨f, (globals_of_lowest same').trans bound, named⟩, reached⟩
  · exact .inr defined

end Environment

theorem Table.isSome_get? {α : Type} {t : Table α} {name : String} (mem : name ∈ t.map (·.1)) :
    (t.get? name).isSome := by
  rw [get?_eq_head?, List.isSome_head?]
  exact entries_ne_nil mem

namespace Eval

variable {name : String} {callers made : Nat} {admits : Expr → World → Prop} {w w' : World}

/-- Arguments are bound under the names of the parameters. -/
theorem isSome_scopeOf {names : List String} {values : List Value} (mem : name ∈ names)
    (length : values.length = names.length) : ((scopeOf (names.zip values)).get? name).isSome := by
  have keys : ((names.zip values).map fun p => (p.1, (⟨p.2, .mutable⟩ : Binding Value))).map (·.1)
      = names := by
    rw [List.map_map]
    exact List.map_fst_zip (Nat.le_of_eq length.symm)
  rw [← keys] at mem
  have some_ := List.getLast?_isSome.mpr (Table.entries_ne_nil mem)
  rw [Table.get?_eq_head?, entries_scopeOf]
  cases last : (Table.entries _ name).getLast? with
  | none => simp [last] at some_
  | some b => rfl

/-- The law of code that runs on top of the frames of a caller, of which there are `callers` besides
the global one: as long as the frames of the call bind a name, that name stays bound to the same below
them, but for definitions of functions. -/
abbrev calleeLaw (callers made : Nat) (name : String) (admits : Expr → World → Prop) : Law where
  code _ := True
  value _ := True
  world w := w.env.Covers (callers + 1) name ∧ made ≤ w.created
  step w w' := w.env.Keeps w'.env ∧ w.env.KeepsBelow (callers + 1) made name admits w'.env

/-- A change of the environment that keeps the stack in order. -/
theorem calleeLaw_change (hw : (calleeLaw callers made name admits).world w)
    (created : w.created ≤ w'.created) (kept : w.env.Keeps w'.env)
    (below : w.env.KeepsBelow (callers + 1) made name admits w'.env) :
    (calleeLaw callers made name admits).world w' ∧
      (calleeLaw callers made name admits).step w w' :=
  ⟨⟨hw.1.keeps kept, Nat.le_trans hw.2 created⟩, kept, below⟩

/-- Scopes come and go on top of the caller's frames. -/
theorem below_outside {scopes : List Frame} (deep : callers ≤ w.env.locals.length)
    (run : (calleeLaw callers made name admits).step (Law.inside w scopes) w') :
    w.env.KeepsBelow (callers + 1) made name admits (Law.outside w w').env := by
  obtain ⟨kept, below⟩ := run
  refine below.imp_left fun same => ?_
  have length : (scopes ++ w.env.locals).length = w'.env.locals.length := kept.locals.length_eq
  rw [List.length_append] at length
  -- scopes come and go on top: on the way in and on the way out the lowest frames are the same
  have entered : (Law.inside w scopes).env.lowest (callers + 1) name
      = w.env.lowest (callers + 1) name :=
    Environment.lowest_of_append [] scopes w.env.locals rfl rfl rfl (Nat.succ_le_succ deep)
  have left : (Law.outside w w').env.lowest (callers + 1) name
      = w'.env.lowest (callers + 1) name := by
    have dropped := outside_locals kept.locals.length_eq
    refine Environment.lowest_of_append (w'.env.locals.take scopes.length) []
      (w'.env.locals.drop scopes.length) (List.take_append_drop _ _).symm dropped rfl ?_
    rw [List.length_drop]
    omega
  exact left.trans (same.trans entered)

/-- Every step of evaluation obeys the law of calls. -/
theorem calleeLaw_sound (callers made : Nat) (name : String) (admits : Expr → World → Prop) :
    (calleeLaw callers made name admits).SoundFor admits where
  refl w := ⟨.refl w.env, .inl rfl⟩
  trans first rest := ⟨first.1.trans rest.1, first.2.trans rest.2⟩
  items _ _ _ := trivial
  inits _ _ _ := trivial
  body _ _ _ := trivial
  int _ := trivial
  str _ := trivial
  quoted _ := trivial
  lookup _ _ := trivial
  called _ := ⟨fun _ _ => trivial, fun _ _ => trivial⟩
  made _ _ _ _ := trivial
  print hw _ := calleeLaw_change hw (Nat.le_refl _) (.refl _) (.inl rfl)
  create hw := calleeLaw_change hw (Nat.le_succ _) (.refl _) (.inl rfl)
  -- a name that is bound above the lowest frames is assigned and made a constant there
  assign hw _ changed := calleeLaw_change hw (Nat.le_refl _) (Environment.keeps_assign changed)
    (.inl (Environment.lowest_assign hw.1 changed))
  const hw _ changed := calleeLaw_change hw (Nat.le_refl _) (Environment.keeps_defineConst changed)
    (.inl (Environment.lowest_defineConst hw.1 changed))
  defun := by
    intro w head hs other ns rest span params body env f made' hw hmade _ form _ admitted changed
    refine calleeLaw_change hmade (Nat.le_refl _) (Environment.keeps_defineFunction changed) ?_
    -- a definition of the name itself is the exception that the law admits
    by_cases same : other = name
    · subst same
      refine .inr ⟨⟨_, Environment.globals_defineFunction changed, rfl, hw.2⟩, _, w, admitted, ?_⟩
      simp [Expr.defines, form]
    · exact .inl (Environment.lowest_defineFunction same changed _)
  enter := by
    rintro w scopes ⟨⟨height, frame, above, found, bound⟩, created⟩ -
    refine ⟨⟨height, frame, above, ?_, bound⟩, created⟩
    -- heights count from below, so the scopes of a call leave the frame at its height
    rw [Environment.frameAt?_eq_getElem?] at found ⊢
    obtain ⟨low, rfl⟩ := List.getElem?_eq_some_iff.mp found
    unfold Law.inside
    rw [List.reverse_append, ← List.cons_append, List.getElem?_append_left low]
    exact found
  leave {w _ _} hw hw' run := by
    -- the frame is below those that are dropped
    have deep : callers + 1 < w.env.locals.length + 1 := hw.1.lt_depth
    have kept := keeps_outside run.1
    exact ⟨⟨hw.1.keeps kept, hw'.2⟩, kept, below_outside (by omega) run⟩

theorem after_within {α : Type} {enter : Environment → Environment} {scopes : List Frame}
    (entered : ∀ env, enter env = { env with locals := scopes ++ env.locals }) (act : EvalM α)
    (w : World) : after (within enter act) w = Law.outside w (after act (Law.inside w scopes)) := by
  unfold after within Law.inside
  rw [entered]
  generalize act { w with env := { w.env with locals := scopes ++ w.env.locals } } = result
  cases result <;> rfl

/-- A name that a function brings along: a parameter, or one that it has captured. -/
def Owns (f : Closure Value) (name : String) : Prop :=
  name ∈ f.params ∨ name ∈ f.captures.map (·.1)

variable {f : Closure Value} {values : List Value}

/-- The frames of a call bind the names that the function brings along. -/
theorem covers_inside (owned : Owns f name) (arity : values.length = f.arity) (w : World) :
    (Law.inside w [scopeOf (f.params.zip values), f.captures]).env.Covers
      (w.env.locals.length + 1) name := by
  unfold Environment.Covers Law.inside
  simp only [Environment.frameAt?_eq_getElem?]
  rcases owned with param | captured
  · refine ⟨w.env.locals.length + 2, scopeOf (f.params.zip values), Nat.le_succ _, ?_,
      isSome_scopeOf param arity⟩
    simp
  · refine ⟨w.env.locals.length + 1, f.captures, Nat.le_refl _, ?_, Table.isSome_get? captured⟩
    simp

/-- What a call changes below its own frames, if all its evaluations obey the law. -/
theorem lowest_after_activate {eval : Expr → EvalM Value} (owned : Owns f name)
    (arity : values.length = f.arity) (w : World)
    (obeys : ∀ e, (calleeLaw w.env.locals.length w.created name admits).Obeys (fun _ => True)
      (eval e)) :
    let u := after (activate eval f values) w
    w.env.Keeps u.env ∧ w.env.KeepsBelow w.env.depth w.created name admits u.env := by
  have sound := calleeLaw_sound w.env.locals.length w.created name admits
  have start : (calleeLaw w.env.locals.length w.created name admits).world
      (Law.inside w [scopeOf (f.params.zip values), f.captures]) :=
    ⟨covers_inside owned arity w, Nat.le_refl _⟩
  have body := Law.obeys_evalBody sound (fun e _ => obeys e) fun e (_ : e ∈ f.body) => trivial
  have run := step_after body start
  unfold activate
  rw [after_within (pushCall_defineAll · f.captures (f.params.zip values))]
  exact ⟨keeps_outside run.1, below_outside (Nat.le_refl _) run⟩

/-- While the function runs, a definition of a function `name` is evaluated, and that function is
the one that is global in the end: a run that stops at such definitions takes another course. -/
def DefinedDuring (name : String) (config : Config) (fuel : Nat) (f : Closure Value)
    (values : List Value) (w : World) : Prop :=
  activate (evalUpTo (fun e _ => e.defines name) config fuel) f values w ≠
      activate (evalWith config fuel) f values w ∧
    (after (activate (evalWith config fuel) f values) w).env.DefinesSince w.created name

/-- **A call does not write through to what its function has captured.** However the body of a
function runs and ends, a frame that was there before the call binds each parameter and each captured
name to what it bound it to, unless a function of that very name was defined meanwhile. -/
theorem get?_after_activate (config : Config) (fuel : Nat) (owned : Owns f name)
    (arity : values.length = f.arity) {w : World} {height : Nat} {frame : Frame}
    (found : w.env.frameAt? height = some frame) :
    ∃ frame', (after (activate (evalWith config fuel) f values) w).env.frameAt? height = some frame' ∧
      (frame'.get? name = frame.get? name ∨ DefinedDuring name config fuel f values w) := by
  have low : height < w.env.depth := by
    rw [Environment.frameAt?_eq_getElem?] at found
    obtain ⟨low, -⟩ := List.getElem?_eq_some_iff.mp found
    simpa [Environment.depth] using low
  obtain ⟨kept, below⟩ := lowest_after_activate owned arity w fun e =>
    Law.obeys_evalWith (calleeLaw_sound w.env.locals.length w.created name fun _ _ => True) config fuel
      (e := e) trivial
  -- the same law of the run that stops at the first definition of the name
  obtain ⟨-, stopped⟩ := lowest_after_activate owned arity w fun e =>
    Law.obeys_evalUpTo (calleeLaw_sound w.env.locals.length w.created name
      fun e _ => e.defines name = false) config fuel (fun _ _ passed => passed) (e := e) trivial
  by_cases reached : activate (evalUpTo (fun e _ => e.defines name) config fuel) f values w =
      activate (evalWith config fuel) f values w
  · -- the run is one without definitions of the name
    have same := stopped.resolve_right fun ⟨_, e, u, passed, defines⟩ => by
      rw [passed] at defines
      cases defines
    unfold after at same
    rw [reached] at same
    obtain ⟨frame', found', same⟩ := Environment.get?_of_lowest same low found
    exact ⟨frame', found', .inl same⟩
  · -- a definition of the name was reached, which the statement allows for
    rcases below with same | ⟨defined, -⟩
    · obtain ⟨frame', found', same⟩ := Environment.get?_of_lowest same low found
      exact ⟨frame', found', .inl same⟩
    · obtain ⟨frame', found', -⟩ := kept.disciplined.kept height frame found
      exact ⟨frame', found', .inr ⟨reached, defined⟩⟩

/-- `(g) (set x 5)` with the parameter `x`, where `y` is captured and so is `g`, a function without
captures of its own that runs `(set y 3)`. -/
def borrower : Closure Value :=
  ⟨1, none, ["x"], [
    .list [.ident "g" ⟨0, 0⟩] ⟨0, 0⟩,
    .list [.ident "set" ⟨0, 0⟩, .ident "x" ⟨0, 0⟩, .int 5 ⟨0, 0⟩] ⟨0, 0⟩],
    [("y", ⟨.int 1, .mutable⟩), ("g", ⟨.function ⟨0, some "g", [],
      [.list [.ident "set" ⟨0, 0⟩, .ident "y" ⟨0, 0⟩, .int 3 ⟨0, 0⟩] ⟨0, 0⟩], []⟩, .mutable⟩)]⟩

/-- The assignment of `g` is to the captured `y`; that of the caller stays what it was. -/
theorem get?_after_activate_borrower :
    Owns borrower "y" ∧ [Value.int 7].length = borrower.arity ∧
    ∃ frame', (after (activate (evalWith {} 5) borrower [.int 7])
        ⟨⟨[[("y", ⟨.int 9, .mutable⟩)]], []⟩, .buffer, 2⟩).env.frameAt? 1 = some frame' ∧
      frame'.get? "y" = some ⟨.int 9, .mutable⟩ := by
  have owned : Owns borrower "y" := .inr List.mem_cons_self
  have arity : [Value.int 7].length = borrower.arity := rfl
  let w : World := ⟨⟨[[("y", ⟨.int 9, .mutable⟩)]], []⟩, .buffer, 2⟩
  have callers : w.env.frameAt? 1 = some [("y", ⟨.int 9, .mutable⟩)] := rfl
  obtain ⟨frame', found', same | defined⟩ := get?_after_activate {} 5 owned arity callers
  · exact ⟨owned, arity, frame', found', same⟩
  · exact absurd (by rfl) defined.1

end Eval

end TwinLisp
